import ApplianceConfig.Network.Address

/-!
# The text of addresses

An address is written in hexadecimal digits, points and colons only, whichever of its forms is taken, and never as the empty text.
-/

namespace ApplianceConfig.Address

/-- Holds of the characters that addresses are written in. -/
def isAddressChar (c : Char) : Bool := "0123456789abcdef.:".toList.contains c

theorem isAddressChar_of_mem_toDigits {base : Nat} (hbase : 1 < base) (hle : base ≤ 16) (n : Nat) :
    ∀ c ∈ Nat.toDigits base n, isAddressChar c = true := by
  have hdigit : ∀ d < 16, isAddressChar (Nat.digitChar d) = true := by decide
  induction n using Nat.strongRecOn with
  | ind n ih =>
    intro c hc
    rw [Nat.toDigits_eq_if hbase] at hc
    split at hc
    · rename_i hn
      rw [List.mem_singleton.mp hc]
      exact hdigit n (by omega)
    · rename_i hn
      have hmod := Nat.mod_lt n (Nat.lt_trans Nat.zero_lt_one hbase)
      rcases List.mem_append.mp hc with hc | hc
      · exact ih (n / base) (Nat.div_lt_self (by omega) hbase) c hc
      · rw [List.mem_singleton.mp hc]
        exact hdigit _ (by omega)

/-- Holds of the texts that are made of such characters. -/
def isAddressText (text : String) : Bool := text.toList.all isAddressChar

theorem isAddressText_append (first second : String) :
    isAddressText (first ++ second) = (isAddressText first && isAddressText second) := by
  rw [isAddressText, String.toList_append, List.all_append]
  rfl

theorem isAddressText_toDigits {base : Nat} (hbase : 1 < base) (hle : base ≤ 16) (n : Nat) :
    isAddressText (String.ofList (Nat.toDigits base n)) = true := by
  rw [isAddressText, String.toList_ofList, List.all_eq_true]
  exact isAddressChar_of_mem_toDigits hbase hle n

theorem isAddressText_toString (n : Nat) : isAddressText (toString n) = true := by
  rw [Nat.toString_eq_ofList_toDigits]
  exact isAddressText_toDigits (by decide) (by decide) n

theorem isAddressText_intercalate {separator : String} {texts : List String}
    (hseparator : isAddressText separator = true)
    (htexts : ∀ text ∈ texts, isAddressText text = true) :
    isAddressText (separator.intercalate texts) = true := by
  match texts with
  | [] => rfl
  | [text] => exact htexts text List.mem_cons_self
  | text :: next :: rest =>
    have hrest := isAddressText_intercalate hseparator
      fun t ht => htexts t (List.mem_cons_of_mem text ht)
    rw [String.intercalate_cons_cons, isAddressText_append, isAddressText_append,
      htexts text List.mem_cons_self, hseparator, hrest]
    rfl

theorem isAddressText_renderOctets (bits : BitVec 32) : isAddressText (renderOctets bits) = true := by
  refine isAddressText_intercalate (by decide) fun text htext => ?_
  obtain ⟨octet, -, rfl⟩ := List.mem_map.mp htext
  rw [Nat.toString_eq_ofList_toDigits]
  exact isAddressText_toDigits (by decide) (by decide) octet

theorem isAddressText_renderGroups (groups : List Nat) :
    isAddressText (renderGroups groups) = true := by
  refine isAddressText_intercalate (by decide) fun text htext => ?_
  obtain ⟨group, -, rfl⟩ := List.mem_map.mp htext
  exact isAddressText_toDigits (by decide) (by decide) group

theorem isAddressText_render (address : Address) : isAddressText address.render = true := by
  have hmapped : isAddressText "::ffff:" = true := by decide
  have hgap : isAddressText "::" = true := by decide
  cases address with
  | v4 bits => exact isAddressText_renderOctets bits
  | v6 bits =>
    unfold render
    simp only
    split
    · rw [isAddressText_append, hmapped, isAddressText_renderOctets]
      rfl
    · split
      · exact isAddressText_renderGroups _
      · rw [isAddressText_append, isAddressText_append, hgap, isAddressText_renderGroups,
          isAddressText_renderGroups]
        rfl

/-- Texts put together by a separator show it. -/
theorem intercalate_ne_empty {separator : String} (hseparator : separator ≠ "") {texts : List String}
    (h : 1 < texts.length) : separator.intercalate texts ≠ "" := by
  match texts, h with
  | text :: next :: rest, _ => simp [String.intercalate_cons_cons, hseparator]

theorem renderOctets_ne_empty (bits : BitVec 32) : renderOctets bits ≠ "" :=
  intercalate_ne_empty (by decide) (by simp [Radix.length_lowDigits])

theorem render_ne_empty (address : Address) : address.render ≠ "" := by
  cases address with
  | v4 bits => exact renderOctets_ne_empty bits
  | v6 bits =>
    unfold render
    simp only
    split
    · simp
    · split
      · exact intercalate_ne_empty (by decide) (by simp [Radix.length_lowDigits])
      · simp

end ApplianceConfig.Address
