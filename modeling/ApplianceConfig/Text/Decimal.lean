/-!
# Decimal numbers in text

Whole numbers written in ASCII digits, with a range check against the width that is to hold them. A sign may stand before the digits, and leading zeros are allowed.
-/

namespace ApplianceConfig.Text

/-- The number that digits stand for when they follow a number already read. -/
def digitsFrom (value : Nat) (cs : List Char) : Nat :=
  cs.foldl (fun n c => 10 * n + (c.toNat - '0'.toNat)) value

/-- The digits of a number stand for it. -/
theorem digitsFrom_toDigits (n : Nat) : digitsFrom 0 (Nat.toDigits 10 n) = n := by
  have hdigits := Nat.ofDigitChars_ten_toDigits (n := n)
  rw [Nat.ofDigitChars_eq_foldl] at hdigits
  exact hdigits

theorem toDigits_injective {m n : Nat} (h : Nat.toDigits 10 m = Nat.toDigits 10 n) : m = n := by
  rw [← digitsFrom_toDigits m, h, digitsFrom_toDigits]

theorem toList_toString (n : Nat) : (toString n).toList = Nat.toDigits 10 n := by
  rw [Nat.toString_eq_ofList_toDigits, String.toList_ofList]

theorem isDigit_of_mem_toString {n : Nat} {c : Char} (h : c ∈ (toString n).toList) : c.isDigit = true := by
  rw [toList_toString] at h
  exact Nat.isDigit_of_mem_toDigits (by decide) (by decide) h

theorem toList_toString_ne_nil (n : Nat) : (toString n).toList ≠ [] := by
  rw [toList_toString]
  exact Nat.toDigits_ne_nil

/-- The value of a nonempty run of ASCII digits. -/
def digits? (cs : List Char) : Option Nat :=
  if !cs.isEmpty && cs.all Char.isDigit then some (digitsFrom 0 cs) else none

/-- A run of digits behind an optional plus sign. -/
def unsigned? : List Char → Option Nat
  | '+' :: cs => digits? cs
  | cs => digits? cs

/-- Digits stand for their number, because no digit is a sign. -/
theorem unsigned?_of_isDigit {cs : List Char} (hne : cs ≠ []) (h : ∀ c ∈ cs, c.isDigit = true) :
    unsigned? cs = some (digitsFrom 0 cs) := by
  have hdigits : digits? cs = some (digitsFrom 0 cs) := by
    rw [digits?, if_pos]
    simpa [hne] using h
  obtain ⟨c, cs, rfl⟩ := List.exists_cons_of_ne_nil hne
  have hplus : c ≠ '+' := by
    rintro rfl
    exact absurd (h '+' List.mem_cons_self) (by decide)
  rw [unsigned?.eq_2 _ (by simp [hplus]), hdigits]

/-- A run of digits behind an optional sign. -/
def signed? : List Char → Option Int
  | '-' :: cs => (digits? cs).map fun n => -(n : Int)
  | cs => (unsigned? cs).map Int.ofNat

/-- A number that fits 64 bits with a sign. -/
def toInt64? (n : Int) : Option Int64 :=
  if Int64.minValue.toInt ≤ n ∧ n ≤ Int64.maxValue.toInt then some (Int64.ofInt n) else none

/-- A signed number of 64 bits; a larger one has no value. -/
def int64? (text : String) : Option Int64 := (signed? text.toList).bind toInt64?

/-- An unsigned number of 32 bits; a larger one has no value. -/
def uint32? (text : String) : Option UInt32 := do
  let n ← unsigned? text.toList
  if n < UInt32.size then some (UInt32.ofNat n) else none

theorem uint32?_toString (n : UInt32) : uint32? (toString n) = some n := by
  have hdigits : ∀ c ∈ (toString n.toNat).toList, c.isDigit = true := fun c => isDigit_of_mem_toString
  have hunsigned : unsigned? (toString n).toList = some n.toNat := by
    refine (unsigned?_of_isDigit (toList_toString_ne_nil n.toNat) hdigits).trans ?_
    rw [toList_toString, digitsFrom_toDigits]
  rw [uint32?, hunsigned]
  show (if n.toNat < UInt32.size then some (UInt32.ofNat n.toNat) else none) = some n
  rw [if_pos n.toNat_lt_size, UInt32.ofNat_toNat]

end ApplianceConfig.Text
