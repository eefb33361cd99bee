/-!
# Digits of any base
-/

namespace ApplianceConfig.Radix

def hexDigit? (c : Char) : Option Nat :=
  if c.isDigit then some (c.toNat - '0'.toNat)
  else if 'a' ≤ c ∧ c ≤ 'f' then some (c.toNat - 'a'.toNat + 10)
  else if 'A' ≤ c ∧ c ≤ 'F' then some (c.toNat - 'A'.toNat + 10)
  else none

/-- The value of a digit of a base up to sixteen. -/
def digit? (base : Nat) (c : Char) : Option Nat := (hexDigit? c).filter (· < base)

def isDigit (base : Nat) (c : Char) : Bool := (digit? base c).isSome

/-- The number that digits of a base stand for, the highest first. -/
def weigh (base : Nat) (digits : List Nat) : Nat := digits.foldl (fun n d => n * base + d) 0

/-- The number that characters stand for when all are digits of a base. -/
def valueOf (base : Nat) (cs : List Char) : Nat := weigh base (cs.filterMap (digit? base))

/-- The last digits of a number in a base, `count` of them, the lowest first. -/
def lowDigits (base : Nat) : Nat → Nat → List Nat
  | 0, _ => []
  | count + 1, n => n % base :: lowDigits base count (n / base)

theorem length_lowDigits (base count n : Nat) : (lowDigits base count n).length = count := by
  induction count generalizing n with
  | zero => rfl
  | succ count ih => rw [lowDigits, List.length_cons, ih]

theorem lt_of_mem_lowDigits {base count n d : Nat} (hbase : 0 < base) (h : d ∈ lowDigits base count n) :
    d < base := by
  induction count generalizing n with
  | zero => cases h
  | succ count ih =>
    rw [lowDigits, List.mem_cons] at h
    rcases h with rfl | h
    · exact Nat.mod_lt n hbase
    · exact ih h

end ApplianceConfig.Radix
