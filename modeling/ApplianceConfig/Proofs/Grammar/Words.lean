import ApplianceConfig.Password
import ApplianceConfig.Proofs.Grammar.Lexing
import ApplianceConfig.Proofs.Network.Address

/-!
# Words put together

A text of word characters is a word unless it is empty or `none`. A mark that is not in `none` rules both out, so paths, addresses with a length or a port, and hashes are words, whatever words they are put together from.
-/

namespace ApplianceConfig.Grammar

/-- Holds of texts of word characters only, the empty one included. -/
def isWordText (s : String) : Bool := s.toList.all isWordChar

theorem isWordText_append (first second : String) :
    isWordText (first ++ second) = (isWordText first && isWordText second) := by
  rw [isWordText, String.toList_append, List.all_append]
  rfl

theorem isWordText_of_isBare {s : String} (h : isBare s = true) : isWordText s = true := by
  rw [isBare, Bool.and_eq_true, Bool.and_eq_true] at h
  exact h.1.2

theorem isBare_of_isWordText {s : String} (h : isWordText s = true) (hempty : s ≠ "") (hnone : s ≠ "none") :
    isBare s = true := by
  rw [isBare, Bool.and_eq_true, Bool.and_eq_true, Bool.not_eq_true', ← Bool.not_eq_true,
    String.isEmpty_iff, bne_iff_ne]
  exact ⟨⟨hempty, h⟩, hnone⟩

/-- Holds of texts of word characters that are in no empty text and not in `none`. -/
def isMark (s : String) : Bool := isWordText s && s.toList.any fun c => !"none".toList.contains c

/-- A mark makes a word of any word characters around it. -/
theorem isBare_around {mark : String} (hmark : isMark mark = true) {before after : String}
    (hbefore : isWordText before = true) (hafter : isWordText after = true) :
    isBare (before ++ mark ++ after) = true := by
  rw [isMark, Bool.and_eq_true, List.any_eq_true] at hmark
  obtain ⟨hword, c, hc, hother⟩ := hmark
  have hmem : c ∈ (before ++ mark ++ after).toList := by
    simp [hc]
  refine isBare_of_isWordText ?_ ?_ ?_
  · rw [isWordText_append, isWordText_append, hbefore, hword, hafter]
    rfl
  · intro hempty
    rw [hempty] at hmem
    cases hmem
  · intro hnone
    rw [hnone, ← List.contains_iff_mem] at hmem
    rw [hmem] at hother
    cases hother

/-! ### Numbers and addresses -/

theorem isWordText_of_isAddressText {s : String} (h : Address.isAddressText s = true) :
    isWordText s = true := by
  have hchars : "0123456789abcdef.:".toList.all isWordChar = true := by decide
  rw [isWordText, List.all_eq_true]
  intro c hc
  exact List.all_eq_true.mp hchars c (List.contains_iff_mem.mp (List.all_eq_true.mp h c hc))

theorem isBare_render (address : Address) : isBare address.render = true := by
  have htext := address.isAddressText_render
  refine isBare_of_isWordText (isWordText_of_isAddressText htext) address.render_ne_empty ?_
  intro hnone
  rw [hnone] at htext
  cases htext

/-! ### Password hashes -/

theorem isWordChar_of_mem_letters (count n : Nat) : ∀ c ∈ Password.letters count n, isWordChar c = true := by
  have halphabet : Password.alphabet.all isWordChar = true := by decide
  intro c hc
  obtain ⟨d, -, rfl⟩ := List.mem_map.mp hc
  rw [List.getD_eq_getElem?_getD]
  cases hletter : Password.alphabet[d]? with
  | none => decide
  | some letter => exact List.all_eq_true.mp halphabet letter (List.mem_of_getElem? hletter)

theorem isWordChar_of_mem_digestLetters (d : Vector UInt8 16) :
    ∀ c ∈ Password.digestLetters d, isWordChar c = true := by
  intro c hc
  simp only [Password.digestLetters, Password.tripleLetters, List.mem_append] at hc
  rcases hc with ((((h | h) | h) | h) | h) | h <;> exact isWordChar_of_mem_letters _ _ c h

/-- The hash of any password is a word, by whatever digest, if its salt is of word characters. -/
theorem isBare_hashWith (digest : List UInt8 → Vector UInt8 16) (password : String) {salt : String}
    (hsalt : (Password.effectiveSalt salt.toList).all isWordChar = true) :
    isBare (Password.hashWith digest password salt) = true := by
  let effective := Password.effectiveSalt salt.toList
  let d := Password.finalDigest digest (Password.bytes password.toList) (Password.bytes effective)
  have hbefore : isWordText (String.ofList (Password.mark ++ effective)) = true := by
    rw [isWordText, String.toList_ofList, List.all_append, hsalt]
    decide
  have hletters : isWordText (String.ofList (Password.digestLetters d)) = true := by
    rw [isWordText, String.toList_ofList, List.all_eq_true]
    exact isWordChar_of_mem_digestLetters d
  have htext : Password.hashWith digest password salt =
      String.ofList (Password.mark ++ effective) ++ "$" ++ String.ofList (Password.digestLetters d) := by
    apply String.toList_injective
    simp [Password.hashWith, effective, d]
  rw [htext]
  exact isBare_around (by decide) hbefore hletters

end ApplianceConfig.Grammar
