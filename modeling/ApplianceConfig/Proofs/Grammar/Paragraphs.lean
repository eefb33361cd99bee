import ApplianceConfig.Document.Encode
import ApplianceConfig.Proofs.Grammar.Lexing
import ApplianceConfig.Proofs.Grammar.Recognition

/-!
# Paragraphs

A line feed ends every piece of a text but a quoted one, and a quoted text that is closed in front of it stays closed. Behind the line feed the reader is between two lines, unless a block is still open. So whole lines that can be read are read in front of others as they are read alone, and the texts of several documents can be put together.
-/

namespace ApplianceConfig

namespace Grammar

/-! ### Pieces in front of a line feed -/

theorem takeWhile_append_newline {p : Char → Bool} (hp : p '\n' = false) (cs more : List Char) :
    (cs ++ '\n' :: more).takeWhile p = cs.takeWhile p := by
  induction cs with
  | nil => simp [hp]
  | cons c cs ih => by_cases hc : p c = true <;> simp [hc, ih]

theorem quotedExtent_plain {c : Char} (hquote : c ≠ '"') (hbackslash : c ≠ '\\') (rest : List Char) :
    quotedExtent (c :: rest) = ((quotedExtent rest).1, (quotedExtent rest).2 + 1) :=
  quotedExtent.eq_5 c rest hquote (fun h _ => hbackslash h) (fun _ _ h _ => hbackslash h)

/-- Induction along a quoted text: it ends, or goes on behind an escaped character or a plain one. -/
@[elab_as_elim]
theorem quotedExtent_induction {motive : List Char → Prop} (nil : motive []) (close : ∀ rest, motive ('"' :: rest))
    (lone : motive ['\\']) (broken : ∀ rest, motive ('\\' :: '\n' :: rest))
    (escape : ∀ c rest, c ≠ '\n' → motive rest → motive ('\\' :: c :: rest))
    (plain : ∀ c rest, c ≠ '"' → c ≠ '\\' → motive rest → motive (c :: rest)) (cs : List Char) : motive cs := by
  induction cs using quotedExtent.induct with
  | case1 => exact nil
  | case2 rest => exact close rest
  | case3 => exact lone
  | case4 rest => exact broken rest
  | case5 c rest hc ih => exact escape c rest hc ih
  | case6 c rest hquote hlast hescape ih =>
    refine plain c rest hquote ?_ ih
    rintro rfl
    cases rest with
    | nil => exact hlast rfl rfl
    | cons d rest => exact hescape d rest rfl rfl

/-- A quoted text that is closed is closed whatever is behind it. -/
theorem quotedExtent_append {cs : List Char} (h : (quotedExtent cs).1 = true) (more : List Char) :
    (quotedExtent cs).2 ≤ cs.length ∧ quotedExtent (cs ++ more) = quotedExtent cs := by
  induction cs using quotedExtent_induction with
  | nil | lone | broken => simp [quotedExtent] at h
  | close rest => simp [quotedExtent]
  | escape c rest hc ih =>
    simp only [List.cons_append, quotedExtent, if_neg hc] at h ⊢
    obtain ⟨hle, heq⟩ := ih h
    exact ⟨by simpa using hle, by rw [heq]⟩
  | plain c rest hquote hbackslash ih =>
    simp only [List.cons_append, quotedExtent_plain hquote hbackslash] at h ⊢
    obtain ⟨hle, heq⟩ := ih h
    exact ⟨by simpa using hle, by rw [heq]⟩

/-- A line feed closes no quoted text. -/
theorem quotedExtent_of_newline {cs : List Char} (h : (quotedExtent (cs ++ ['\n'])).1 = true) :
    (quotedExtent cs).1 = true := by
  induction cs using quotedExtent_induction with
  | nil | lone | broken => simp [quotedExtent] at h
  | close rest => simp [quotedExtent]
  | escape c rest hc ih =>
    simp only [List.cons_append, quotedExtent, if_neg hc] at h ⊢
    exact ih h
  | plain c rest hquote hbackslash ih =>
    simp only [List.cons_append, quotedExtent_plain hquote hbackslash] at h ⊢
    exact ih h

theorem firstPiece_comment (rest : List Char) :
    firstPiece '#' rest = (.skipped, (rest.takeWhile (· ≠ '\n')).length) := rfl

theorem firstPiece_quote (rest : List Char) :
    firstPiece '"' rest =
      if (quotedExtent rest).1 then
        (.token (.word ⟨.quoted, String.ofList (Quoted.decode (rest.take ((quotedExtent rest).2 - 1)))⟩),
          (quotedExtent rest).2)
      else (.unknown, (quotedExtent rest).2) := rfl

/-- Marks and unknown characters are pieces of their own. -/
theorem firstPiece_mark {c : Char} (hspace : isSpace c = false) (hcomment : c ≠ '#') (hquote : c ≠ '"')
    (hword : isWordChar c = false) : ∃ piece, ∀ rest, firstPiece c rest = (piece, 0) := by
  by_cases hopen : c = '\x7b'
  · exact ⟨.token .openBrace, fun rest => by rw [hopen]; rfl⟩
  by_cases hclose : c = '\x7d'
  · exact ⟨.token .closeBrace, fun rest => by rw [hclose]; rfl⟩
  by_cases hnewline : c = '\n'
  · exact ⟨.token .newline, fun rest => by rw [hnewline]; rfl⟩
  exact ⟨.unknown, fun rest => by simp [firstPiece, *]⟩

/-- A piece that is not quoted goes on as far as characters are of one sort, and a line feed is of none of these sorts. -/
theorem firstPiece_run {c : Char} (hquote : c ≠ '"') :
    ∃ (p : Char → Bool) (piece : List Char → Piece), p '\n' = false ∧
      ∀ rest, firstPiece c rest = (piece (rest.takeWhile p), (rest.takeWhile p).length) := by
  by_cases hspace : isSpace c = true
  · exact ⟨isSpace, fun _ => .skipped, by decide, firstPiece_space hspace⟩
  by_cases hword : isWordChar c = true
  · exact ⟨isWordChar, fun more => .token (wordToken (c :: more)), by decide, firstPiece_word hword⟩
  by_cases hcomment : c = '#'
  · exact ⟨(· ≠ '\n'), fun _ => .skipped, by decide, fun rest => hcomment ▸ firstPiece_comment rest⟩
  obtain ⟨mark, hmark⟩ := firstPiece_mark (by simpa using hspace) hcomment hquote (by simpa using hword)
  have hnone (rest : List Char) : rest.takeWhile (fun _ => false) = [] := by cases rest <;> rfl
  refine ⟨fun _ => false, fun _ => mark, rfl, fun rest => ?_⟩
  rw [hmark, hnone, List.length_nil]

/-- A piece that is not quoted ends in front of a line feed. -/
theorem firstPiece_unquoted {c : Char} (hquote : c ≠ '"') (cs : List Char) :
    (firstPiece c cs).2 ≤ cs.length ∧ ∀ more, firstPiece c (cs ++ '\n' :: more) = firstPiece c cs := by
  obtain ⟨p, piece, hnewline, hrun⟩ := firstPiece_run hquote
  simp only [hrun, takeWhile_append_newline hnewline]
  exact ⟨(List.takeWhile_sublist p).length_le, fun _ => trivial⟩

/-- The first piece of a line does not depend on what is behind the line, unless it is unknown. -/
theorem firstPiece_append_newline {c : Char} {cs : List Char} {piece : Piece} {n : Nat}
    (h : firstPiece c cs = (piece, n)) (hknown : piece ≠ .unknown) :
    n ≤ cs.length ∧ ∀ more, firstPiece c (cs ++ '\n' :: more) = (piece, n) := by
  by_cases hquote : c = '"'
  · subst hquote
    rw [firstPiece_quote] at h
    by_cases hclosed : (quotedExtent cs).1 = true
    · rw [if_pos hclosed] at h
      cases h
      refine ⟨(quotedExtent_append hclosed []).1, fun more => ?_⟩
      obtain ⟨hextent, heq⟩ := quotedExtent_append hclosed ('\n' :: more)
      rw [firstPiece_quote, heq, if_pos hclosed, List.take_append_of_le_length (by omega)]
    · rw [if_neg hclosed] at h
      cases h
      exact absurd rfl hknown
  · have hunquoted := firstPiece_unquoted hquote cs
    rwa [h] at hunquoted

/-- The line feed behind a line makes no piece of it known. -/
theorem firstPiece_of_newline {c : Char} {cs : List Char} {piece : Piece} {n : Nat}
    (h : firstPiece c (cs ++ ['\n']) = (piece, n)) (hknown : piece ≠ .unknown) : firstPiece c cs = (piece, n) := by
  by_cases hquote : c = '"'
  · subst hquote
    rw [firstPiece_quote] at h
    by_cases hclosed : (quotedExtent (cs ++ ['\n'])).1 = true
    · have hinner := quotedExtent_of_newline hclosed
      obtain ⟨hextent, heq⟩ := quotedExtent_append hinner ['\n']
      rw [if_pos hclosed, heq, List.take_append_of_le_length (by omega)] at h
      rwa [firstPiece_quote, if_pos hinner]
    · rw [if_neg hclosed] at h
      cases h
      exact absurd rfl hknown
  · rwa [(firstPiece_unquoted hquote cs).2] at h

theorem eq_nil_of_lexes_nil {ts : List Token} (h : Lexes [] ts) : ts = [] := by
  obtain ⟨lexemes, htokens, rfl⟩ := h 0
  rw [tokensFrom] at htokens
  cases htokens
  rfl

theorem not_lexes_of_unknown {c : Char} {rest : List Char} {n : Nat} {ts : List Token}
    (hpiece : firstPiece c rest = (.unknown, n)) : ¬ Lexes (c :: rest) ts := by
  intro h
  obtain ⟨lexemes, htokens, -⟩ := h 0
  rw [tokensFrom, hpiece] at htokens
  cases htokens

theorem Lexes.exists_of_token {c : Char} {rest : List Char} {t : Token} {n : Nat} {ts : List Token}
    (hpiece : firstPiece c rest = (.token t, n)) (h : Lexes (c :: rest) ts) :
    ∃ more, ts = t :: more ∧ Lexes (rest.drop n) more := by
  obtain ⟨lexemes, htokens, rfl⟩ := h 0
  rw [tokensFrom, hpiece] at htokens
  cases hothers : tokensFrom (0 + byteLength (c :: rest.take n)) (rest.drop n) with
  | error span =>
    simp only [hothers] at htokens
    cases htokens
  | ok others =>
    simp only [hothers] at htokens
    cases htokens
    exact ⟨_, rfl, lexes_of_tokensFrom hothers⟩

/-- Induction along the pieces of characters that are cut into tokens. -/
@[elab_as_elim]
theorem Lexes.induction {motive : (cs : List Char) → (ts : List Token) → Lexes cs ts → Prop}
    (nil : motive [] [] lexes_nil)
    (skipped : ∀ c rest n ts (hpiece : firstPiece c rest = (.skipped, n)) (h : Lexes (rest.drop n) ts),
      motive _ _ h → motive (c :: rest) ts (.skipped hpiece h))
    (token : ∀ c rest t n ts (hpiece : firstPiece c rest = (.token t, n)) (h : Lexes (rest.drop n) ts),
      motive _ _ h → motive (c :: rest) (t :: ts) (.token hpiece h))
    {cs : List Char} {ts : List Token} (h : Lexes cs ts) : motive cs ts h := by
  induction hlength : cs.length using Nat.strongRecOn generalizing cs ts with
  | ind length ih =>
    cases cs with
    | nil =>
      obtain rfl := eq_nil_of_lexes_nil h
      exact nil
    | cons c rest =>
      have hshorter (n : Nat) : (rest.drop n).length < length := by
        rw [← hlength, List.length_drop, List.length_cons]
        omega
      rcases hpiece : firstPiece c rest with ⟨_ | t | _, n⟩
      · have hrest := lexes_drop_of_skipped hpiece h
        exact skipped c rest n ts hpiece hrest (ih _ (hshorter n) hrest rfl)
      · obtain ⟨others, rfl, hrest⟩ := h.exists_of_token hpiece
        exact token c rest t n others hpiece hrest (ih _ (hshorter n) hrest rfl)
      · exact absurd h (not_lexes_of_unknown hpiece)

/-- The tokens of a line, the line feed and the tokens behind it. -/
theorem Lexes.line {cs more : List Char} {ts us : List Token} (h : Lexes cs ts) (hmore : Lexes more us) :
    Lexes (cs ++ '\n' :: more) (ts ++ .newline :: us) := by
  induction h using Lexes.induction with
  | nil => exact hmore.newline
  | skipped c rest n ts hpiece hrest ih =>
    obtain ⟨hle, hfirst⟩ := firstPiece_append_newline hpiece nofun
    rw [← List.drop_append_of_le_length hle] at ih
    exact .skipped (hfirst more) ih
  | token c rest t n ts hpiece hrest ih =>
    obtain ⟨hle, hfirst⟩ := firstPiece_append_newline hpiece nofun
    rw [← List.drop_append_of_le_length hle] at ih
    exact .token (hfirst more) ih

/-- A text that ends with a line feed has the tokens of the lines in front of it, and the line feed. -/
theorem Lexes.exists_of_newline {cs : List Char} {ts : List Token} (h : Lexes (cs ++ ['\n']) ts) :
    ∃ front, ts = front ++ [.newline] ∧ Lexes cs front := by
  generalize hall : cs ++ ['\n'] = all at h
  induction h using Lexes.induction generalizing cs with
  | nil => simp at hall
  | skipped c rest n ts hpiece hrest ih =>
    cases cs with
    | nil =>
      obtain ⟨rfl, rfl⟩ := List.cons.inj hall
      cases hpiece
    | cons d cs =>
      obtain ⟨rfl, rfl⟩ := List.cons.inj hall
      have hfirst := firstPiece_of_newline hpiece nofun
      have hle := (firstPiece_append_newline hfirst nofun).1
      obtain ⟨front, rfl, hfront⟩ := ih (List.drop_append_of_le_length hle).symm
      exact ⟨front, rfl, .skipped hfirst hfront⟩
  | token c rest t n ts hpiece hrest ih =>
    cases cs with
    | nil =>
      obtain ⟨rfl, rfl⟩ := List.cons.inj hall
      cases hpiece
      rw [eq_nil_of_lexes_nil hrest]
      exact ⟨[], rfl, lexes_nil⟩
    | cons d cs =>
      obtain ⟨rfl, rfl⟩ := List.cons.inj hall
      have hfirst := firstPiece_of_newline hpiece nofun
      have hle := (firstPiece_append_newline hfirst nofun).1
      obtain ⟨front, rfl, hfront⟩ := ih (List.drop_append_of_le_length hle).symm
      exact ⟨t :: front, rfl, .token hfirst hfront⟩

/-! ### Reading behind a line -/

theorem Block.exists_step_newline (block : Block) :
    ∃ inner, block.step .newline = some (.stay inner) ∧ inner.step .newline = some (.stay inner) := by
  have hstep : block.step .newline = block.settle.stepEntries .newline := by
    cases block with
    | fresh words => cases words <;> rfl
    | between entries | keyed entries key => rfl
  rw [hstep]
  cases hsettled : block.settle with
  | fresh words => exact absurd hsettled (block.settle_ne_fresh words)
  | between entries | keyed entries key => exact ⟨_, rfl, rfl⟩

namespace State

/-- A line feed can stand anywhere, and a second one makes no difference. -/
theorem exists_step_newline (s : State) : ∃ next, s.step .newline = some next ∧ next.step .newline = some next := by
  cases s with
  | between doc | keyed doc key more | ended doc => exact ⟨_, rfl, rfl⟩
  | inside doc key more outer block =>
    obtain ⟨inner, hfirst, hsecond⟩ := block.exists_step_newline
    exact ⟨.inside doc key more outer inner, by simp [step, hfirst], by simp [step, hsecond]⟩

/-- Where a document may end, a line feed leads to the lines behind it. -/
theorem step_newline_of_finish? {s : State} {doc : Entries} (h : s.finish? = some doc) :
    s.step .newline = some (.between doc) := by
  cases s with
  | between present | keyed present key words | ended present =>
    cases h
    rfl
  | inside present key more outer block => cases h

/-- A line feed at the end makes no difference. -/
theorem accept?_append_newline (s : State) (ts : List Token) : s.accept? (ts ++ [.newline]) = s.accept? ts := by
  induction ts generalizing s with
  | nil =>
    cases s with
    | between doc | keyed doc key more | ended doc => rfl
    | inside doc key more outer block =>
      obtain ⟨inner, hstep, -⟩ := block.exists_step_newline
      simp [accept?, step, hstep, finish?]
  | cons t ts ih =>
    rw [List.cons_append, accept?, accept?]
    congr 1
    funext next
    exact ih next

/-- Behind a document and a line feed the reader goes on with the next line. -/
theorem accept?_line {s : State} {front : List Token} {doc : Entries} (h : s.accept? front = some doc)
    (us : List Token) : s.accept? (front ++ .newline :: us) = accept? (.between doc) us := by
  induction front generalizing s with
  | nil => exact accept?_of_step (step_newline_of_finish? h) us
  | cons t front ih =>
    obtain ⟨next, hstep, hnext⟩ := Option.bind_eq_some_iff.mp h
    exact (accept?_of_step hstep _).trans (ih hnext)

end State

/-- What has been read before makes no difference to whether lines can be read. -/
theorem State.exists_accept?_between {us : List Token} {result : Entries}
    (h : accept? (.between []) us = some result) (doc : Entries) :
    ∃ more, accept? (.between doc) us = some more := by
  obtain ⟨entries, hderives, -⟩ := accept?_eq_some_iff.mp h
  exact ⟨_, hderives.accept?_between doc⟩

end Grammar

open Grammar

/-- A text can be parsed when its tokens can be read. -/
theorem Document.parse_eq_ok_iff {text : String} {doc : Document} :
    Document.parse text = .ok doc ↔
      ∃ ts entries, Lexes text.toList ts ∧ State.accept? (.between []) ts = some entries ∧
        doc = { entries } := by
  constructor
  · intro h
    unfold Document.parse at h
    cases htokens : tokens text with
    | error span =>
      rw [htokens] at h
      cases h
    | ok lexemes =>
      simp only [htokens] at h
      cases hread : read (.between []) lexemes with
      | error failure =>
        rw [hread] at h
        cases h
      | ok entries =>
        rw [hread] at h
        cases h
        exact ⟨_, entries, lexes_of_tokensFrom htokens, read_eq_ok_iff.mp hread, rfl⟩
  · rintro ⟨ts, entries, hlexes, haccept, rfl⟩
    obtain ⟨lexemes, htokens, rfl⟩ := hlexes 0
    rw [Document.parse, tokens, htokens]
    simp only [read_eq_ok_iff.mpr haccept]

/-- A text is parsed as its tokens are derived. -/
theorem Document.parse_of_lexes {text : String} {ts : List Token} {entries : Entries}
    (hlexes : Lexes text.toList ts) (hderives : Grammar.Derives .ordered ts entries) :
    Document.parse text = .ok { entries := collect entries } :=
  Document.parse_eq_ok_iff.mpr ⟨ts, _, hlexes, hderives.accept?, rfl⟩

/-- The document that the tokens of a text are read as, if they are one. -/
theorem Document.toOption_parse {text : String} {lexemes : List Lexeme} (hlex : tokens text = .ok lexemes) :
    (Document.parse text).toOption =
      (State.accept? (.between []) (lexemes.map Lexeme.token)).map fun entries => { entries } := by
  unfold Document.parse
  simp only [hlex]
  cases hread : read (.between []) lexemes with
  | ok entries =>
    rw [read_eq_ok_iff.mp hread]
    rfl
  | error failure =>
    cases haccept : State.accept? (.between []) (lexemes.map Lexeme.token) with
    | none => rfl
    | some entries => simp [read_eq_ok_iff.mpr haccept] at hread

namespace Grammar

/-- Holds of texts that can be read and that others can stand behind, since their last line ends. -/
structure Paragraph (text : String) : Prop where
  ends : text = "" ∨ ∃ lines, text = lines ++ "\n"
  parses : ∃ doc, Document.parse text = .ok doc

namespace Paragraph

theorem empty : Paragraph "" where
  ends := .inl rfl
  parses := ⟨_, Document.parse_eq_ok_iff.mpr ⟨[], [], lexes_nil, rfl, rfl⟩⟩

theorem append {first rest : String} (hfirst : Paragraph first) (hrest : Paragraph rest) :
    Paragraph (first ++ rest) where
  ends := by
    obtain rfl | ⟨lines, rfl⟩ := hrest.ends
    · rw [String.append_empty]
      exact hfirst.ends
    · exact .inr ⟨first ++ lines, String.append_assoc.symm⟩
  parses := by
    obtain rfl | ⟨lines, rfl⟩ := hfirst.ends
    · rw [String.empty_append]
      exact hrest.parses
    obtain ⟨doc, hdoc⟩ := hfirst.parses
    obtain ⟨other, hother⟩ := hrest.parses
    obtain ⟨ts, entries, hlexes, haccept, -⟩ := Document.parse_eq_ok_iff.mp hdoc
    obtain ⟨us, others, hlexesRest, hacceptRest, -⟩ := Document.parse_eq_ok_iff.mp hother
    rw [String.toList_append] at hlexes
    obtain ⟨front, rfl, hfront⟩ := Lexes.exists_of_newline hlexes
    rw [State.accept?_append_newline] at haccept
    obtain ⟨more, hmore⟩ := State.exists_accept?_between hacceptRest entries
    refine ⟨_, Document.parse_eq_ok_iff.mpr ⟨front ++ .newline :: us, more, ?_, ?_, rfl⟩⟩
    · have htokens := hfront.line hlexesRest
      simpa using htokens
    · rw [State.accept?_line haccept, hmore]

theorem join {texts : List String} (h : ∀ text ∈ texts, Paragraph text) : Paragraph (String.join texts) := by
  induction texts with
  | nil => exact empty
  | cons text texts ih =>
    obtain ⟨htext, htexts⟩ := List.forall_mem_cons.mp h
    rw [String.join_cons]
    exact htext.append (ih htexts)

end Paragraph

end Grammar

/-- The text of a document that can be read back is a paragraph. -/
theorem Document.paragraph_encode {doc : Document} {indent : Nat}
    (h : ∃ again, Document.parse (doc.encode indent) = .ok again) : Paragraph (doc.encode indent) where
  ends := by
    unfold Document.encode
    rcases List.eq_nil_or_concat (Encode.itemsOf indent 0 "" doc.entries) with hnil | ⟨items, item, hitems⟩
    · rw [hnil]
      exact .inl rfl
    · refine .inr ⟨String.join (items.map (· ++ "\n")) ++ item, ?_⟩
      rw [hitems]
      simp [String.join_append, String.join_cons, String.append_assoc]
  parses := h

end ApplianceConfig
