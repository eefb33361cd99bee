import ApplianceConfig.Proofs.Document.Merging
import ApplianceConfig.Proofs.Grammar.Paragraphs

/-!
# Texts one behind the other

A text behind another one is read as if the lines of the first had been its own first lines. Its lines are then written into the first document one by one, while the second document is written into it as a whole, its own lines being merged already. Both come to the same, by the associativity of merging, unless a line of the second text replaces a plain value of that text by a chain.
-/

namespace ApplianceConfig

namespace Grammar

/-! ### Keys of derived values -/

theorem distinct_of_scalar? {t : Token} {v : Value} (h : t.scalar? = some v) : v.distinct = true := by
  cases t with
  | openBrace | closeBrace | newline => cases h
  | null =>
    cases h
    rfl
  | word w =>
    cases h
    unfold Word.value Value.ofWord Value.ofDigits
    split
    · split <;> [rfl; split <;> rfl]
    · split <;> rfl
    · rfl

mutual

/-- A derived value has distinct keys on every level, since groups are merged from their entries. -/
theorem Block.Derives.distinct {c : Choice} {ts rest : List Token} {v : Value}
    (h : Block.Derives c ts v rest) : v.distinct = true := by
  match h with
  | .set _ => rfl
  | .group _ _ hentries =>
    rw [collect_eq_mergeInto]
    exact distinctEntries_mergeInto hentries.distinct rfl

theorem EntryTail.Derives.distinct {c : Choice} {ts rest : List Token} {v : Value}
    (h : EntryTail.Derives c ts v rest) : v.distinct = true := by
  match h with
  | .block hblock => exact hblock.distinct
  | .scalar hscalar => exact distinct_of_scalar? hscalar
  | .toggle _ => rfl

theorem Members.Derives.distinct {c : Choice} {ts rest : List Token} {entries : Entries}
    (h : Members.Derives c ts entries rest) : ∀ e ∈ entries, e.2.distinct = true := by
  match h with
  | .done => exact nofun
  | .entry htail _ hmore => exact List.forall_mem_cons.mpr ⟨htail.distinct, hmore.distinct⟩

end

theorem LineTail.Derives.distinct {c : Choice} {ts rest : List Token} {v : Value}
    (h : LineTail.Derives c ts v rest) : v.distinct = true := by
  induction h with
  | block hblock => exact hblock.distinct
  | scalar hscalar _ => exact distinct_of_scalar? hscalar
  | chain _ _ ih => simp [Value.distinct, distinctEntries, Assoc.contains, ih]
  | toggle _ => rfl

theorem Derives.distinct {c : Choice} {ts : List Token} {entries : Entries} (h : Derives c ts entries) :
    ∀ e ∈ entries, e.2.distinct = true := by
  obtain ⟨us, -, hlines⟩ := h
  induction hlines with
  | done => exact nofun
  | line htail _ _ ih => exact List.forall_mem_cons.mpr ⟨htail.distinct, ih⟩

end Grammar

open Grammar

theorem Document.exists_lines_of_parse {text : String} {doc : Document} (h : Document.parse text = .ok doc) :
    ∃ lexemes lines, tokens text = .ok lexemes ∧ Derives .ordered (lexemes.map Lexeme.token) lines := by
  obtain ⟨ts, entries, hlexes, haccept, -⟩ := Document.parse_eq_ok_iff.mp h
  obtain ⟨lexemes, hlex, rfl⟩ := hlexes 0
  obtain ⟨lines, hlines, -⟩ := accept?_eq_some_iff.mp haccept
  exact ⟨lexemes, lines, hlex, hlines⟩

/-- The lines of a text behind a document are read into that document. -/
theorem Document.parse_append_lines {first second : String} {a : Document} {lexemes : List Lexeme}
    {lines : Entries} (hfirst : Document.parse first = .ok a) (hlex : tokens second = .ok lexemes)
    (hlines : Derives .ordered (lexemes.map Lexeme.token) lines) :
    Document.parse (first ++ "\n" ++ second) = .ok { entries := mergeInto lines a.entries } := by
  obtain ⟨ts, entries, hlexes, haccept, rfl⟩ := Document.parse_eq_ok_iff.mp hfirst
  have htokens : Lexes (first ++ "\n" ++ second).toList (ts ++ .newline :: lexemes.map Lexeme.token) := by
    simpa using hlexes.line (lexes_of_tokensFrom hlex)
  apply Document.parse_eq_ok_iff.mpr
  refine ⟨_, _, htokens, ?_, rfl⟩
  rw [State.accept?_line haccept, hlines.accept?_between]

/-- Behind a text that is a document and a line feed, any other such text can stand. If its lines put no chain in the place of a value that is none, at whatever depth, while the text is read by itself, then the document of the whole is that of the first text with that of the second merged into it. -/
theorem Document.parse_append_newline {first second : String} {a b : Document}
    (hfirst : Document.parse first = .ok a) (hsecond : Document.parse second = .ok b) :
    (∃ doc, Document.parse (first ++ "\n" ++ second) = .ok doc) ∧
      ∀ lexemes lines, tokens second = .ok lexemes → Derives .ordered (lexemes.map Lexeme.token) lines →
        b.entries = collect lines ∧
          (joinsEntries lines [] = true → Document.parse (first ++ "\n" ++ second) = .ok (a.merge b)) := by
  constructor
  · obtain ⟨lexemes, lines, hlex, hlines⟩ := Document.exists_lines_of_parse hsecond
    exact ⟨_, Document.parse_append_lines hfirst hlex hlines⟩
  · intro lexemes lines hlex hlines
    have hcollect := Document.parse_of_lexes (lexes_of_tokensFrom hlex) hlines
    obtain rfl : b = { entries := collect lines } := Except.ok.inj (hsecond.symm.trans hcollect)
    refine ⟨rfl, fun hjoins => ?_⟩
    obtain ⟨ts, entries, -, -, rfl⟩ := Document.parse_eq_ok_iff.mp hfirst
    -- the first document is itself a merge of lines, but any entries would do
    have hassoc : mergeInto (mergeInto lines []) entries = mergeInto lines (mergeInto [] entries) :=
      mergeInto_mergeInto hjoins hlines.distinct rfl entries
    rw [Document.parse_append_lines hfirst hlex hlines, Document.merge, Entries.merge, collect_eq_mergeInto,
      hassoc, mergeInto]

/-- Two lines of one chain, behind a line of the same chain with a comment at its end. -/
theorem Document.parse_append_newline_sharedChain :
    let first := "a b 1 # one"
    let second := "a c \x7b x \x7d\na b 2"
    ∃ one two lexemes lines, Document.parse first = .ok one ∧ Document.parse second = .ok two ∧
      tokens second = .ok lexemes ∧ Derives .ordered (lexemes.map Lexeme.token) lines ∧
      joinsEntries lines [] = true ∧ Document.parse (first ++ "\n" ++ second) = .ok (one.merge two) := by
  intro first second
  have hfirst : Lexes first.toList [.word (bareWord "a"), .word (bareWord "b"), .word (bareWord "1")] := by
    have hcomment : Lexes ['#', ' ', 'o', 'n', 'e'] [] := .skipped (n := 4) rfl lexes_nil
    have hb := Lexes.bare_space (s := "b") (by decide) (Lexes.bare_space (s := "1") (by decide) hcomment)
    exact (congrArg (Lexes · _) (by decide +kernel)).mpr (Lexes.bare_space (s := "a") (by decide) hb)
  have hsecond : Lexes second.toList [.word (bareWord "a"), .word (bareWord "c"), .openBrace, .word (bareWord "x"),
      .closeBrace, .newline, .word (bareWord "a"), .word (bareWord "b"), .word (bareWord "2")] := by
    have htwo := Lexes.bare (s := "2") (by decide) (by simp [WordEnds]) lexes_nil
    have hb := Lexes.bare_space (s := "b") (by decide) htwo
    have ha := Lexes.bare_space (s := "a") (by decide) hb
    have hx := Lexes.bare_space (s := "x") (by decide) ha.newline.closeBrace
    have hc := Lexes.bare_space (s := "c") (by decide) hx.space.openBrace
    exact (congrArg (Lexes · _) (by decide +kernel)).mpr (Lexes.bare_space (s := "a") (by decide) hc)
  have hline (number : String) : LineTail.Derives .ordered [.word (bareWord "b"), .word (bareWord number)]
      (.map .chained [("b", (bareWord number).value)]) [] := .chain (fun _ => id) (.scalar rfl trivial)
  have hset : Block.Derives .ordered [.openBrace, .word (bareWord "x"), .closeBrace, .newline, .word (bareWord "a"),
      .word (bareWord "b"), .word (bareWord "2")] (.set ["x"])
      [.newline, .word (bareWord "a"), .word (bareWord "b"), .word (bareWord "2")] :=
    .set (List.cons_ne_nil (bareWord "x") [])
  have hone := Document.parse_of_lexes hfirst ⟨_, .done, .line (hline "1") .done .done⟩
  obtain ⟨lexemes, hlex, htokens⟩ := hsecond 0
  have hlines : Derives .ordered (lexemes.map Lexeme.token)
      [("a", .map .chained [("c", .set ["x"])]), ("a", .map .chained [("b", (bareWord "2").value)])] := by
    rw [htokens]
    exact ⟨_, .done, .line (.chain (w := bareWord "c") (fun _ => id) (.block hset)) (.skip .done)
      (.line (hline "2") .done .done)⟩
  have htwo := Document.parse_of_lexes (lexes_of_tokensFrom hlex) hlines
  exact ⟨_, _, lexemes, _, hone, htwo, hlex, hlines, rfl,
    ((Document.parse_append_newline hone htwo).2 lexemes _ hlex hlines).2 rfl⟩

end ApplianceConfig
