import ApplianceConfig.Proofs.Grammar.Paragraphs
import Mathlib.Data.List.Destutter
import Mathlib.Data.List.DropRight

/-!
# Blank lines

Line feeds count, but how many of them stand together does not. A state takes a line feed whatever it is, and a second one changes nothing any more. In front of the first line and behind the last one a line feed changes nothing either. So two texts that differ in blanks, comments and blank lines only are read as the same document, or both are none.
-/

namespace ApplianceConfig

namespace Grammar

/-- Holds of tokens that stand side by side when no line is blank: not of two line feeds. -/
def Token.Neighbors (t u : Token) : Prop := ¬ (t = .newline ∧ u = .newline)

instance : DecidableRel Token.Neighbors := fun t u => inferInstanceAs (Decidable ¬ (t = .newline ∧ u = .newline))

def Token.isNewline (t : Token) : Bool := t == .newline

/-- The tokens with one line feed in place of several that stand together, and with none at either end. -/
def compact (ts : List Token) : List Token :=
  ((ts.destutter Token.Neighbors).dropWhile Token.isNewline).rdropWhile Token.isNewline

/-! ### Line feeds that stand together -/

namespace State

theorem accept?_newline_newline (s : State) (ts : List Token) :
    s.accept? (.newline :: .newline :: ts) = s.accept? (.newline :: ts) := by
  obtain ⟨next, hfirst, hsecond⟩ := s.exists_step_newline
  rw [accept?_of_step hfirst, accept?_of_step hfirst, accept?_of_step hsecond]

theorem accept?_destutter' (s : State) (t : Token) (ts : List Token) :
    s.accept? (ts.destutter' Token.Neighbors t) = s.accept? (t :: ts) := by
  induction ts generalizing s t with
  | nil => rw [List.destutter'_nil]
  | cons u ts ih =>
    by_cases h : t.Neighbors u
    · rw [List.destutter'_cons_pos _ h, accept?, accept?]
      congr 1
      funext next
      exact ih next u
    · rw [List.destutter'_cons_neg _ h, ih]
      obtain ⟨rfl, rfl⟩ := not_not.mp h
      exact (s.accept?_newline_newline ts).symm

theorem accept?_destutter (s : State) (ts : List Token) :
    s.accept? (ts.destutter Token.Neighbors) = s.accept? ts := by
  cases ts with
  | nil => rfl
  | cons t ts => exact s.accept?_destutter' t ts

/-! ### Line feeds at the ends -/

theorem accept?_dropWhile_newline (doc : Entries) (ts : List Token) :
    accept? (.between doc) (ts.dropWhile Token.isNewline) = accept? (.between doc) ts := by
  induction ts with
  | nil => rfl
  | cons t ts ih =>
    by_cases h : t.isNewline = true
    · rw [List.dropWhile_cons_of_pos h, ih, eq_of_beq h]
      rfl
    · rw [List.dropWhile_cons_of_neg h]

theorem accept?_rdropWhile_newline (s : State) (ts : List Token) :
    s.accept? (ts.rdropWhile Token.isNewline) = s.accept? ts := by
  induction ts using List.reverseRecOn with
  | nil => rfl
  | append_singleton ts t ih =>
    by_cases h : t.isNewline = true
    · rw [List.rdropWhile_concat_pos _ _ _ h, ih, eq_of_beq h, accept?_append_newline]
    · rw [List.rdropWhile_concat_neg _ _ _ h]

/-- A document is read from its tokens as from those that blank lines leave. -/
theorem accept?_compact (ts : List Token) : accept? (.between []) (compact ts) = accept? (.between []) ts := by
  rw [compact, accept?_rdropWhile_newline, accept?_dropWhile_newline, accept?_destutter]

end State

end Grammar

open Grammar

/-- Layout does not matter. If the tokens of two texts are the same but for blank lines, then both texts are the same document, or neither is one. -/
theorem Document.parse_of_compact_eq {first second : String} {lexemes more : List Lexeme}
    (hfirst : tokens first = .ok lexemes) (hsecond : tokens second = .ok more)
    (hcompact : compact (lexemes.map Lexeme.token) = compact (more.map Lexeme.token)) :
    (∃ doc, Document.parse first = .ok doc ∧ Document.parse second = .ok doc) ∨
      ∃ e f, Document.parse first = .error e ∧ Document.parse second = .error f := by
  have hsame : (Document.parse first).toOption = (Document.parse second).toOption := by
    rw [toOption_parse hfirst, toOption_parse hsecond, ← State.accept?_compact, hcompact, State.accept?_compact]
  cases hleft : Document.parse first with
  | ok doc =>
    cases hright : Document.parse second with
    | ok other =>
      rw [hleft, hright] at hsame
      obtain rfl : doc = other := Option.some.inj hsame
      exact .inl ⟨doc, rfl, rfl⟩
    | error f => simp [hleft, hright, Except.toOption] at hsame
  | error e =>
    cases hright : Document.parse second with
    | ok other => simp [hleft, hright, Except.toOption] at hsame
    | error f => exact .inr ⟨e, f, rfl, rfl⟩

/-- A group with a comment and blank lines, and the same group without. -/
theorem Document.parse_of_compact_eq_spacious :
    let first := "\n a b \x7b # one\n\n  c 1\n\n\x7d\n\n"
    let second := "a b \x7b\nc 1\n\x7d"
    ∃ lexemes more, tokens first = .ok lexemes ∧ tokens second = .ok more ∧
      compact (lexemes.map Lexeme.token) = compact (more.map Lexeme.token) ∧
      ((∃ doc, Document.parse first = .ok doc ∧ Document.parse second = .ok doc) ∨
        ∃ e f, Document.parse first = .error e ∧ Document.parse second = .error f) := by
  intro first second
  have hcomment : Lexes ['#', ' ', 'o', 'n', 'e'] [] := .skipped (n := 4) rfl lexes_nil
  have hopen {cs : List Char} (h : Lexes cs []) : Lexes ("a".toList ++ ' ' :: ("b".toList ++ ' ' :: '\x7b' :: cs))
      [.word (bareWord "a"), .word (bareWord "b"), .openBrace] :=
    .bare_space (by decide) (.bare_space (by decide) h.openBrace)
  have hentry : Lexes ("c".toList ++ ' ' :: ("1".toList ++ [])) [.word (bareWord "c"), .word (bareWord "1")] :=
    .bare_space (by decide) (.bare (by decide) (by simp [WordEnds]) lexes_nil)
  have hfirst := lexes_nil.line ((hopen hcomment.space).space.line (lexes_nil.line (hentry.space.space.line
    (lexes_nil.line (lexes_nil.closeBrace.line lexes_nil.newline)))))
  have hsecond := (hopen lexes_nil).line (hentry.line lexes_nil.closeBrace)
  obtain ⟨lexemes, hlex, htokens⟩ := ((congrArg (Lexes · _) (show first.toList = _ by decide +kernel)).mpr hfirst) 0
  obtain ⟨more, hmore, hothers⟩ := ((congrArg (Lexes · _) (show second.toList = _ by decide +kernel)).mpr hsecond) 0
  have hcompact : compact (lexemes.map Lexeme.token) = compact (more.map Lexeme.token) := by
    rw [htokens, hothers]
    decide
  exact ⟨lexemes, more, hlex, hmore, hcompact, parse_of_compact_eq hlex hmore hcompact⟩

end ApplianceConfig
