import ApplianceConfig.Proofs.Grammar.Image

/-!
# What a written text is read as

Marks are put around a text if it is empty or holds white space, and what stands between marks is read back as it was. A text without marks is cut like any other part of a document. It stays in one piece exactly if all of it is word characters, and that piece is a word unless it is the sign for no value.

One word can only be read as the text that it was written for if it has no marks: a word in marks is longer than its text.
-/

namespace ApplianceConfig

namespace Quoted

theorem length_decode_le (cs : List Char) : (decode cs).length ≤ cs.length := by
  fun_induction decode cs with
  | case1 c rest ih =>
    simp only [List.length_cons]
    omega
  | case2 c rest _ ih => exact Nat.succ_le_succ ih
  | case3 => exact Nat.le_refl 0

end Quoted

namespace Grammar

theorem eq_quote_of_firstPiece {c : Char} {rest : List Char} {w : Word} {n : Nat}
    (h : firstPiece c rest = (.token (.word w), n)) (hquoted : w.form = .quoted) : c = '"' := by
  by_contra hother
  by_cases hword : isWordChar c = true
  · rw [firstPiece_word hword, Prod.mk.injEq, Piece.token.injEq, wordToken] at h
    obtain ⟨htoken, -⟩ := h
    split_ifs at htoken <;> cases htoken <;> cases hquoted
  · simp only [firstPiece, if_neg hother, if_neg hword] at h
    split_ifs at h <;> cases h

/-- The marks around a word are not in its text. -/
theorem length_text_lt_of_firstPiece {c : Char} {rest : List Char} {w : Word} {n : Nat}
    (h : firstPiece c rest = (.token (.word w), n)) (hquoted : w.form = .quoted) :
    w.text.length < (c :: rest).length := by
  rw [eq_quote_of_firstPiece h hquoted, firstPiece_quote] at h
  split at h
  next =>
    cases h
    rw [String.length_ofList, List.length_cons]
    calc (Quoted.decode (rest.take ((quotedExtent rest).2 - 1))).length
      _ ≤ (rest.take ((quotedExtent rest).2 - 1)).length := Quoted.length_decode_le _
      _ ≤ rest.length := List.length_take_le' _ _
      _ < rest.length + 1 := Nat.lt_succ_self _
  next => cases h

theorem isWritable_iff {s : String} :
    isWritable s = true ↔
      s = "" ∨ (∃ c ∈ s.toList, Text.isBlank c = true) ∨ ((∀ c ∈ s.toList, isWordChar c = true) ∧ s ≠ "none") := by
  simp only [isWritable, Quoted.needsQuotes, isBare, Bool.or_eq_true, Bool.and_eq_true, Bool.not_eq_true',
    String.isEmpty_iff, List.any_eq_true, List.all_eq_true, bne_iff_ne]
  by_cases hempty : s = ""
  · simp [hempty]
  · have hnonempty : s.isEmpty = false := by rwa [← Bool.not_eq_true, String.isEmpty_iff]
    simp [hempty, hnonempty]

/-- A text that one of its own words is read as is bare. -/
theorem isBare_of_tokens {s : String} {lexemes : List Lexeme} (hlex : tokens s = .ok lexemes) {l : Lexeme}
    (hl : l ∈ lexemes) {w : Word} (hword : l.token = .word w) (htext : w.text = s) : isBare s = true := by
  obtain hquoted | ⟨bare, hbare, rfl⟩ := fromText_of_mem_tokens hlex (List.mem_map.mpr ⟨l, hl, hword⟩)
  · obtain ⟨front, c, rest, n, hcs, hpiece, -⟩ := cutFrom_of_mem hlex hl
    rw [hword] at hpiece
    have hlt := length_text_lt_of_firstPiece hpiece hquoted
    rw [htext, ← String.length_toList, hcs, List.length_append] at hlt
    omega
  · exact htext ▸ hbare

/-- A written text is read as one word with that text if it is empty, holds white space, or is a run of word characters other than the sign for no value. -/
theorem tokens_encode_iff (s : String) :
    (∃ l w, tokens (Quoted.encode s) = .ok [l] ∧ l.token = .word w ∧ w.text = s) ↔
      s = "" ∨ (∃ c ∈ s.toList, Text.isBlank c = true) ∨ ((∀ c ∈ s.toList, isWordChar c = true) ∧ s ≠ "none") := by
  rw [← isWritable_iff]
  constructor
  · rintro ⟨l, w, hlex, hword, htext⟩
    by_cases hquotes : Quoted.needsQuotes s = true
    · rw [isWritable, hquotes, Bool.true_or]
    · rw [Quoted.encode, if_neg hquotes] at hlex
      exact isWritable_of_isBare (isBare_of_tokens hlex (List.mem_singleton_self l) hword htext)
  · intro hwritable
    have hend : WordEnds [] := by simp [WordEnds]
    have hwritten : Lexes ((Quoted.encode s).toList ++ []) [.word (writtenWord s)] :=
      .written hwritable hend lexes_nil
    rw [List.append_nil] at hwritten
    obtain ⟨lexemes, hlex, htokens⟩ := hwritten 0
    obtain ⟨l, rfl, hword⟩ := List.map_eq_singleton_iff.mp htokens
    exact ⟨l, writtenWord s, hlex, hword, writtenWord_text s⟩

/-- A closing brace that is written without marks ends the group around it. -/
theorem tokens_encode_closeBrace :
    ¬ ∃ l w, tokens (Quoted.encode "a\x7db") = .ok [l] ∧ l.token = .word w ∧ w.text = "a\x7db" := by
  have hlex : tokens (Quoted.encode "a\x7db") = .ok
      [⟨.word ⟨.plain, "a"⟩, ⟨0, 1⟩⟩, ⟨.closeBrace, ⟨1, 2⟩⟩, ⟨.word ⟨.plain, "b"⟩, ⟨2, 3⟩⟩] := by cbv
  rintro ⟨l, w, hone, -, -⟩
  cases hlex.symm.trans hone

end Grammar

end ApplianceConfig
