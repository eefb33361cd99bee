import ApplianceConfig.Proofs.Grammar.Paragraphs
import Mathlib

/-!
# Tokens tile their text

Where a piece ends is decided by its own characters and the first one behind it. What stands further behind makes no difference, and the end of the text will do as well. So what a token was cut from is that token also when it is cut alone, and a text can be cut off in front of any piece. Between tokens there are only blanks and comments, and since a comment takes the rest of its line, nothing but a line feed can follow it.

Spans count bytes, and they are counted character by character, so a span never ends inside a character.
-/

namespace ApplianceConfig.Grammar

/-! ### Texts that are cut off -/

theorem takeWhile_take {p : Char → Bool} {cs : List Char} {k : Nat} (h : (cs.takeWhile p).length ≤ k) :
    (cs.take k).takeWhile p = cs.takeWhile p := by
  induction cs generalizing k with
  | nil => rw [List.take_nil]
  | cons c cs ih =>
    cases k with
    | zero => rw [List.take_zero, List.takeWhile_nil, List.eq_nil_of_length_eq_zero (Nat.le_zero.mp h)]
    | succ k =>
      rw [List.take_succ_cons]
      by_cases hc : p c = true
      · simp only [List.takeWhile_cons_of_pos hc, List.length_cons, Nat.add_le_add_iff_right] at h ⊢
        rw [ih h]
      · simp only [List.takeWhile_cons_of_neg hc]

/-- Nothing behind the closing mark is needed to find it. -/
theorem quotedExtent_take {cs : List Char} (h : (quotedExtent cs).1 = true) {k : Nat} (hk : (quotedExtent cs).2 ≤ k) :
    quotedExtent (cs.take k) = quotedExtent cs := by
  induction cs using quotedExtent_induction generalizing k with
  | nil | lone | broken => simp [quotedExtent] at h
  | close rest =>
    simp only [quotedExtent] at hk ⊢
    obtain ⟨k, rfl⟩ := Nat.exists_eq_add_of_le' hk
    simp [quotedExtent]
  | escape c rest hc ih =>
    simp only [quotedExtent, if_neg hc] at h hk ⊢
    obtain ⟨k, rfl⟩ := Nat.exists_eq_add_of_le' (Nat.le_of_add_left_le hk)
    simp only [List.take_succ_cons, quotedExtent, if_neg hc, ih h (Nat.le_of_add_le_add_right hk)]
  | plain c rest hquote hbackslash ih =>
    simp only [quotedExtent_plain hquote hbackslash] at h hk ⊢
    obtain ⟨k, rfl⟩ := Nat.exists_eq_add_of_le' (Nat.le_of_add_left_le hk)
    simp only [List.take_succ_cons, quotedExtent_plain hquote hbackslash, ih h (Nat.le_of_add_le_add_right hk)]

theorem firstPiece_take {c : Char} {cs : List Char} {piece : Piece} {n k : Nat} (h : firstPiece c cs = (piece, n))
    (hknown : piece ≠ .unknown) (hk : n ≤ k) : firstPiece c (cs.take k) = (piece, n) := by
  by_cases hquote : c = '"'
  · subst hquote
    rw [firstPiece_quote] at h ⊢
    by_cases hclosed : (quotedExtent cs).1 = true
    · rw [if_pos hclosed] at h
      cases h
      rw [quotedExtent_take hclosed hk, if_pos hclosed, List.take_take, Nat.min_eq_left (by omega)]
    · rw [if_neg hclosed] at h
      cases h
      exact absurd rfl hknown
  · obtain ⟨p, form, -, hrun⟩ := firstPiece_run hquote
    rw [hrun] at h ⊢
    cases h
    rw [takeWhile_take hk]

/-- A piece is the same piece in a text that is cut off somewhere behind it. -/
theorem firstPiece_front {c : Char} {rest front more : List Char} {piece : Piece} {n : Nat}
    (hpiece : firstPiece c rest = (piece, n)) (hknown : piece ≠ .unknown) (hrest : rest.drop n = front ++ more) :
    (rest.take n).length = n ∧ firstPiece c (rest.take n ++ front) = (piece, n) := by
  have hlength : (rest.take n).length = n := List.length_take_of_le (firstPiece_append_newline hpiece hknown).1
  have hwhole : rest = rest.take n ++ front ++ more := by rw [List.append_assoc, ← hrest, List.take_append_drop]
  have hcut : rest.take (rest.take n ++ front).length = rest.take n ++ front :=
    (congrArg (List.take _) hwhole).trans List.take_left
  refine ⟨hlength, ?_⟩
  rw [← hcut]
  refine firstPiece_take hpiece hknown ?_
  rw [List.length_append, hlength]
  exact Nat.le_add_right _ _

/-! ### Gaps -/

/-- What stands between tokens: blanks, and behind them perhaps a comment, which takes the rest of its line. -/
inductive Gap (behind : List Char) : List Char → Prop
  | nothing : Gap behind []
  | blank {c : Char} {cs : List Char} (hc : isSpace c = true) (h : Gap behind cs) : Gap behind (c :: cs)
  | comment {cs : List Char} (hcs : '\n' ∉ cs) (hbehind : ∀ c ∈ behind.head?, c = '\n') : Gap behind ('#' :: cs)

theorem firstPiece_eq_skipped {c : Char} {rest : List Char} {n : Nat} (h : firstPiece c rest = (.skipped, n)) :
    (isSpace c = true ∧ n = (rest.takeWhile isSpace).length) ∨
      (c = '#' ∧ n = (rest.takeWhile (· ≠ '\n')).length) := by
  by_cases hspace : isSpace c = true
  · rw [firstPiece_space hspace] at h
    cases h
    exact .inl ⟨hspace, rfl⟩
  by_cases hcomment : c = '#'
  · rw [hcomment, firstPiece_comment] at h
    cases h
    exact .inr ⟨hcomment, rfl⟩
  · simp only [firstPiece, if_neg hspace, if_neg hcomment] at h
    split_ifs at h <;> cases h

theorem take_length_takeWhile (p : Char → Bool) (cs : List Char) :
    cs.take (cs.takeWhile p).length = cs.takeWhile p :=
  (List.prefix_iff_eq_take.mp (List.takeWhile_prefix p)).symm

theorem eq_false_of_mem_head?_dropWhile {p : Char → Bool} {cs : List Char} {c : Char}
    (h : c ∈ (cs.dropWhile p).head?) : p c = false := by
  have hhead := List.head?_dropWhile_not p cs
  rwa [Option.mem_def.mp h] at hhead

theorem Gap.blanks {behind cs more : List Char} (hcs : ∀ c ∈ cs, isSpace c = true) (h : Gap behind more) :
    Gap behind (cs ++ more) := by
  induction cs with
  | nil => exact h
  | cons c cs ih =>
    obtain ⟨hc, hcs⟩ := List.forall_mem_cons.mp hcs
    exact .blank hc (ih hcs)

/-- A piece without meaning makes the gap behind it longer. -/
theorem Gap.skipped {c : Char} {rest more behind : List Char} {n : Nat} (hpiece : firstPiece c rest = (.skipped, n))
    (hrest : rest.drop n = more ++ behind) (h : Gap behind more) : Gap behind (c :: rest.take n ++ more) := by
  obtain ⟨hspace, rfl⟩ | ⟨rfl, rfl⟩ := firstPiece_eq_skipped hpiece
  · rw [take_length_takeWhile]
    exact .blank hspace (h.blanks fun d hd => List.all_eq_true.mp List.all_takeWhile d hd)
  · rw [drop_length_takeWhile] at hrest
    rw [take_length_takeWhile]
    have hline (d : Char) (hd : d ∈ (more ++ behind).head?) : d = '\n' := by
      rw [← hrest] at hd
      simpa using eq_false_of_mem_head?_dropWhile hd
    have hcomment : '\n' ∉ rest.takeWhile (· ≠ '\n') := fun hmem => by
      simpa using List.all_eq_true.mp List.all_takeWhile _ hmem
    -- the comment stops at a line feed, and no gap starts with one
    cases h with
    | nothing =>
      rw [List.append_nil]
      exact .comment hcomment hline
    | blank hc h =>
      rw [hline _ rfl] at hc
      cases hc
    | comment => cases hline _ rfl

/-! ### Tokens and the gaps around them -/

/-- Holds of the tokens that are runs of word characters. -/
def Token.isRun : Token → Bool
  | .null => true
  | .word w => w.form != .quoted
  | .openBrace | .closeBrace | .newline => false

theorem firstPiece_eq_run {c : Char} {rest : List Char} {t : Token} {n : Nat}
    (h : firstPiece c rest = (.token t, n)) (hrun : t.isRun = true) : n = (rest.takeWhile isWordChar).length := by
  by_cases hword : isWordChar c = true
  · rw [firstPiece_word hword] at h
    cases h
    rfl
  · simp only [firstPiece, if_neg hword] at h
    split_ifs at h <;> cases h <;> cases hrun

/-- Characters are a token whatever is behind them: they are that token when they are cut alone, and a run of word characters is as long as it can be. -/
structure CutAs (t : Token) (inner behind : List Char) : Prop where
  ne_nil : inner ≠ []
  alone : tokens (String.ofList inner) = .ok [⟨t, ⟨0, byteLength inner⟩⟩]
  longest : t.isRun = true → WordEnds behind

theorem cutAs_of_firstPiece {c : Char} {rest : List Char} {t : Token} {n : Nat}
    (h : firstPiece c rest = (.token t, n)) : CutAs t (c :: rest.take n) (rest.drop n) where
  ne_nil := List.cons_ne_nil _ _
  alone := by
    rw [tokens, String.toList_ofList, tokensFrom, firstPiece_take h (by simp) (Nat.le_refl n)]
    simp [tokensFrom, Except.map, List.take_take]
  longest := by
    intro hrun d hd
    rw [firstPiece_eq_run h hrun, drop_length_takeWhile] at hd
    exact eq_false_of_mem_head?_dropWhile hd

/-- Characters that start at a byte are tokens, with a gap in front of each and one behind the last. -/
inductive Tiled : Nat → List Char → List Lexeme → Prop
  | last {start : Nat} {gap : List Char} (hgap : Gap [] gap) : Tiled start gap []
  | token {start : Nat} {gap inner rest : List Char} {t : Token} {lexemes : List Lexeme}
      (hgap : Gap (inner ++ rest) gap) (hinner : CutAs t inner rest)
      (h : Tiled (start + byteLength (gap ++ inner)) rest lexemes) :
      Tiled start (gap ++ inner ++ rest)
        (⟨t, ⟨start + byteLength gap, start + byteLength (gap ++ inner)⟩⟩ :: lexemes)

theorem Tiled.skipped {start : Nat} {c : Char} {rest : List Char} {n : Nat} {lexemes : List Lexeme}
    (hpiece : firstPiece c rest = (.skipped, n))
    (h : Tiled (start + byteLength (c :: rest.take n)) (rest.drop n) lexemes) : Tiled start (c :: rest) lexemes := by
  generalize hstop : start + byteLength (c :: rest.take n) = stop at h
  generalize hcs : rest.drop n = cs at h
  have hrest : c :: rest = c :: rest.take n ++ cs := by rw [← hcs, List.cons_append, List.take_append_drop]
  rw [hrest]
  cases h with
  | last hgap => exact .last (hgap.skipped hpiece (by rw [hcs, List.append_nil]))
  | token hgap hinner h =>
    have hlonger := hgap.skipped hpiece (by rw [hcs, List.append_assoc])
    subst hstop
    simp only [Nat.add_assoc, ← byteLength_append, ← List.append_assoc] at h ⊢
    exact .token hlonger hinner h

theorem tiled_of_tokensFrom {start : Nat} {cs : List Char} {lexemes : List Lexeme}
    (h : tokensFrom start cs = .ok lexemes) : Tiled start cs lexemes := by
  fun_induction tokensFrom start cs generalizing lexemes with
  | case1 =>
    cases h
    exact .last .nothing
  | case2 _ c rest n stop hpiece =>
    rename_i ih
    exact .skipped hpiece (ih h)
  | case3 start c rest n stop t hpiece =>
    rename_i ih
    cases htokens : tokensFrom stop (rest.drop n) with
    | error span =>
      rw [htokens] at h
      cases h
    | ok more =>
      rw [htokens] at h
      cases h
      have htiled : Tiled start ([] ++ (c :: rest.take n) ++ rest.drop n) _ :=
        .token .nothing (cutAs_of_firstPiece hpiece) (ih htokens)
      rwa [List.nil_append, List.cons_append, List.take_append_drop] at htiled
  | case4 => cases h

/-! ### Spans -/

/-- Characters that start at a byte are cut at the ends of a span, into those in front of it, those in it and those behind it. -/
def Span.Cuts (span : Span) (start : Nat) (cs front inner behind : List Char) : Prop :=
  cs = front ++ inner ++ behind ∧ span = ⟨start + byteLength front, start + byteLength (front ++ inner)⟩

theorem Span.Cuts.behind {span : Span} {start : Nat} {first rest front inner behind : List Char}
    (h : span.Cuts (start + byteLength first) rest front inner behind) :
    span.Cuts start (first ++ rest) (first ++ front) inner behind := by
  obtain ⟨rfl, rfl⟩ := h
  constructor
  · simp only [List.append_assoc]
  · simp only [byteLength_append, Nat.add_assoc]

/-- The spans in front of tokens, between them and behind the last one. -/
def gaps (start stop : Nat) : List Lexeme → List Span
  | [] => [⟨start, stop⟩]
  | l :: lexemes => ⟨start, l.span.start⟩ :: gaps l.span.stop stop lexemes

namespace Tiled

variable {start : Nat} {cs : List Char} {lexemes : List Lexeme}

theorem exists_token (h : Tiled start cs lexemes) {l : Lexeme} (hl : l ∈ lexemes) :
    ∃ front inner behind, l.span.Cuts start cs front inner behind ∧ CutAs l.token inner behind := by
  induction h with
  | last => cases hl
  | token hgap hinner _ ih =>
    rcases List.mem_cons.mp hl with rfl | hlater
    · exact ⟨_, _, _, ⟨rfl, rfl⟩, hinner⟩
    · obtain ⟨front, inner, behind, hcuts, htoken⟩ := ih hlater
      exact ⟨_, inner, behind, hcuts.behind, htoken⟩

theorem exists_gap (h : Tiled start cs lexemes) {span : Span}
    (hspan : span ∈ gaps start (start + byteLength cs) lexemes) :
    ∃ front inner behind, span.Cuts start cs front inner behind ∧ Gap behind inner := by
  induction h with
  | last hgap =>
    rw [gaps, List.mem_singleton] at hspan
    exact ⟨[], _, [], ⟨(List.append_nil _).symm, hspan⟩, hgap⟩
  | @token start gap inner rest t lexemes hgap hinner _ ih =>
    rcases List.mem_cons.mp hspan with rfl | hlater
    · exact ⟨[], gap, inner ++ rest, ⟨List.append_assoc .., rfl⟩, hgap⟩
    · have hstop : start + byteLength (gap ++ inner ++ rest) = start + byteLength (gap ++ inner) + byteLength rest := by
        rw [byteLength_append, Nat.add_assoc]
      rw [hstop] at hlater
      obtain ⟨front, inner, behind, hcuts, hgap⟩ := ih hlater
      exact ⟨_, inner, behind, hcuts.behind, hgap⟩

theorem ordered (h : Tiled start cs lexemes) : lexemes.Pairwise fun l m => l.span.stop ≤ m.span.start := by
  induction h with
  | last => exact .nil
  | token hgap hinner hrest ih =>
    refine .cons (fun l hl => ?_) ih
    obtain ⟨front, inner, behind, ⟨-, hspan⟩, -⟩ := hrest.exists_token hl
    rw [hspan]
    exact Nat.le_add_right _ _

end Tiled

/-- Characters are cut at the ends of a span that is not empty, and those in front of it are tokens on their own. -/
def Span.StopsAt (span : Span) (start : Nat) (cs : List Char) : Prop :=
  ∃ front inner behind lexemes,
    span.Cuts start cs front inner behind ∧ inner ≠ [] ∧ tokensFrom start front = .ok lexemes

/-- A piece in front of such characters is the same piece when it is followed by the characters in front of the span only. -/
theorem Span.StopsAt.piece {span : Span} {start : Nat} {c : Char} {rest : List Char} {piece : Piece} {n : Nat}
    (hpiece : firstPiece c rest = (piece, n)) (hknown : piece ≠ .unknown)
    (h : span.StopsAt (start + byteLength (c :: rest.take n)) (rest.drop n)) : span.StopsAt start (c :: rest) := by
  obtain ⟨front, inner, behind, lexemes, hcuts, hinner, hfront⟩ := h
  obtain ⟨hlength, hfirst⟩ := firstPiece_front hpiece hknown (hcuts.1.trans (List.append_assoc ..))
  have hbehind := hcuts.behind
  rw [List.cons_append, List.take_append_drop] at hbehind
  refine ⟨c :: rest.take n ++ front, inner, behind, ?_⟩
  rw [List.cons_append, tokensFrom, hfirst]
  simp only [List.take_left' hlength, List.drop_left' hlength, hfront]
  cases piece with
  | skipped => exact ⟨lexemes, hbehind, hinner, rfl⟩
  | token => exact ⟨_, hbehind, hinner, rfl⟩
  | unknown => exact absurd rfl hknown

theorem stopsAt_of_tokensFrom {start : Nat} {cs : List Char} {span : Span} (h : tokensFrom start cs = .error span) :
    span.StopsAt start cs := by
  fun_induction tokensFrom start cs with
  | case1 => cases h
  | case2 _ c rest n stop hpiece =>
    rename_i ih
    exact .piece hpiece (by simp) (ih h)
  | case3 _ c rest n stop t hpiece =>
    rename_i ih
    cases htokens : tokensFrom stop (rest.drop n) with
    | ok more =>
      rw [htokens] at h
      cases h
    | error other =>
      rw [htokens] at h
      cases h
      exact .piece hpiece (by simp) (ih htokens)
  | case4 _ c rest n stop hpiece =>
    cases h
    refine ⟨[], c :: rest.take n, rest.drop n, [], ⟨?_, rfl⟩, List.cons_ne_nil _ _, by rw [tokensFrom]⟩
    rw [List.nil_append, List.cons_append, List.take_append_drop]

/-! ### Texts -/

/-- Holds of spans in a text that are not empty and end between characters. -/
structure Span.Within (span : Span) (text : String) : Prop where
  nonempty : span.start < span.stop
  stop_le : span.stop ≤ text.utf8ByteSize
  start_valid : String.Pos.Raw.IsValid text ⟨span.start⟩
  stop_valid : String.Pos.Raw.IsValid text ⟨span.stop⟩

theorem isValid_of_toList {text : String} {front rest : List Char} (h : text.toList = front ++ rest) :
    String.Pos.Raw.IsValid text ⟨byteLength front⟩ := by
  rw [String.Pos.Raw.isValid_iff_exists_append]
  refine ⟨String.ofList front, String.ofList rest, ?_, ?_⟩
  · rw [← String.ofList_append, ← h, String.ofList_toList]
  · rw [← utf8ByteSize_ofList]
    rfl

theorem Span.Cuts.within {span : Span} {text : String} {front inner behind : List Char}
    (h : span.Cuts 0 text.toList front inner behind) (hinner : inner ≠ []) : span.Within text := by
  obtain ⟨htext, rfl⟩ := h
  have hstop := isValid_of_toList htext
  simp only [Nat.zero_add]
  refine ⟨?_, hstop.le_rawEndPos, isValid_of_toList (htext.trans (List.append_assoc ..)), hstop⟩
  obtain ⟨c, inner, rfl⟩ := List.exists_cons_of_ne_nil hinner
  have hc := c.utf8Size_pos
  simp only [byteLength_append]
  simp only [byteLength, List.map_cons, total_cons]
  omega

/-- What the tokens of a text say about it. Their spans lie in the text, one behind another. What a span covers is its token also when it is cut alone, and all that no span covers is gaps. -/
structure Tiling (text : String) (lexemes : List Lexeme) : Prop where
  within : ∀ l ∈ lexemes, l.span.Within text
  ordered : lexemes.Pairwise fun l m => l.span.stop ≤ m.span.start
  token : ∀ l ∈ lexemes,
    ∃ front inner behind, l.span.Cuts 0 text.toList front inner behind ∧ CutAs l.token inner behind
  gap : ∀ span ∈ gaps 0 text.utf8ByteSize lexemes,
    ∃ front inner behind, span.Cuts 0 text.toList front inner behind ∧ Gap behind inner

/-- The tokens of a text tile it. A text that cannot be cut into tokens can be cut up to the place that is reported. -/
theorem tokens_tile (text : String) :
    (∀ lexemes, tokens text = .ok lexemes → Tiling text lexemes) ∧
      ∀ span, tokens text = .error span → span.Within text ∧
        ∃ front inner behind lexemes, span.Cuts 0 text.toList front inner behind ∧
          tokens (String.ofList front) = .ok lexemes := by
  refine ⟨fun lexemes hlex => ?_, fun span hlex => ?_⟩
  · have htiled := tiled_of_tokensFrom hlex
    refine ⟨fun l hl => ?_, htiled.ordered, fun l hl => htiled.exists_token hl, fun span hspan => ?_⟩
    · obtain ⟨front, inner, behind, hcuts, hinner⟩ := htiled.exists_token hl
      exact hcuts.within hinner.ne_nil
    · rw [← String.ofList_toList (s := text), utf8ByteSize_ofList, ← Nat.zero_add (byteLength _)] at hspan
      exact htiled.exists_gap hspan
  · obtain ⟨front, inner, behind, lexemes, hcuts, hinner, hfront⟩ := stopsAt_of_tokensFrom hlex
    refine ⟨hcuts.within hinner, front, inner, behind, lexemes, hcuts, ?_⟩
    rw [tokens, String.toList_ofList]
    exact hfront

/-- A comment sign and a line feed stand in a quoted text and a letter of two bytes in a comment. The other text is not closed, and its backslash has nothing to cover. -/
theorem tokens_tile_twoBytes :
    (∃ lexemes, tokens "a\x7b\"#\n\u00e9\" none# \u00e9\n10\x7d" = .ok lexemes ∧ lexemes.length = 7 ∧
      Tiling "a\x7b\"#\n\u00e9\" none# \u00e9\n10\x7d" lexemes) ∧
    ∃ span front inner behind lexemes, tokens "a\"\u00e9\\" = .error span ∧ span = ⟨1, 4⟩ ∧
      span.Within "a\"\u00e9\\" ∧ span.Cuts 0 "a\"\u00e9\\".toList front inner behind ∧
      tokens (String.ofList front) = .ok lexemes := by
  constructor
  · have hlex : tokens "a\x7b\"#\n\u00e9\" none# \u00e9\n10\x7d" =
        .ok [⟨.word ⟨.plain, "a"⟩, ⟨0, 1⟩⟩, ⟨.openBrace, ⟨1, 2⟩⟩, ⟨.word ⟨.quoted, "#\n\u00e9"⟩, ⟨2, 8⟩⟩, ⟨.null, ⟨9, 13⟩⟩,
          ⟨.newline, ⟨17, 18⟩⟩, ⟨.word ⟨.digits, "10"⟩, ⟨18, 20⟩⟩, ⟨.closeBrace, ⟨20, 21⟩⟩] := by cbv
    exact ⟨_, hlex, rfl, (tokens_tile _).1 _ hlex⟩
  · have hlex : tokens "a\"\u00e9\\" = .error ⟨1, 4⟩ := by cbv
    obtain ⟨hwithin, front, inner, behind, lexemes, hcuts, hfront⟩ := (tokens_tile _).2 _ hlex
    exact ⟨_, front, inner, behind, lexemes, hlex, rfl, hwithin, hcuts, hfront⟩

end ApplianceConfig.Grammar
