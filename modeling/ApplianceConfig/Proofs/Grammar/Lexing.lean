import ApplianceConfig.Grammar.Lexer
import Mathlib.Data.List.Basic

/-!
# Cutting written text into tokens

Which tokens a text has does not depend on the byte that it starts at, so it is a relation between characters and tokens alone. It is built from the back: a piece in front of a text that is cut already adds its token, or nothing when it has no meaning. A word must not be followed by a character that would make it longer.
-/

namespace ApplianceConfig.Grammar

/-- The tokens of characters, wherever they start. -/
def Lexes (cs : List Char) (ts : List Token) : Prop :=
  ∀ start, ∃ lexemes, tokensFrom start cs = .ok lexemes ∧ lexemes.map Lexeme.token = ts

/-- Holds where a word ends. -/
def WordEnds (cs : List Char) : Prop := ∀ c ∈ cs.head?, isWordChar c = false

theorem wordEnds_cons {c : Char} (hc : isWordChar c = false) (cs : List Char) : WordEnds (c :: cs) := by
  intro d hd
  cases hd
  exact hc

/-! ### Characters of words -/

/-- Word characters are printable ASCII characters. -/
theorem toNat_of_isWordChar {c : Char} (h : isWordChar c = true) :
    0x21 ≤ c.toNat ∧ c.toNat ≤ 0x7E := by
  rw [isWordChar, Bool.or_eq_true] at h
  rcases h with halnum | hmark
  · delta Char.isAlphanum Char.isAlpha Char.isUpper Char.isLower Char.isDigit at halnum
    simp only [Bool.or_eq_true, Bool.and_eq_true, decide_eq_true_eq, UInt32.le_iff_toNat_le,
      ge_iff_le] at halnum
    change ((65 ≤ c.toNat ∧ c.toNat ≤ 90) ∨ (97 ≤ c.toNat ∧ c.toNat ≤ 122)) ∨
      (48 ≤ c.toNat ∧ c.toNat ≤ 57) at halnum
    omega
  · have hmarks : "_./:%@!$&~*+,;<=>?()|[]^-".toList.all
        (fun d => decide (0x21 ≤ d.toNat) && decide (d.toNat ≤ 0x7E)) = true := by
      decide
    have hc := List.all_eq_true.mp hmarks c (List.contains_iff_mem.mp hmark)
    rwa [Bool.and_eq_true, decide_eq_true_eq, decide_eq_true_eq] at hc

theorem isBlank_eq_false_of_isWordChar {c : Char} (h : isWordChar c = true) :
    Text.isBlank c = false := by
  have hrange := toNat_of_isWordChar h
  simp only [Text.isBlank, Bool.or_eq_false_iff, Bool.and_eq_false_iff, decide_eq_false_iff_not,
    beq_eq_false_iff_ne]
  omega

/-- A character that opens a piece of another sort is no word character. -/
theorem ne_of_isWordChar {c d : Char} (h : isWordChar c = true) (hd : isWordChar d = false) :
    c ≠ d := by
  rintro rfl
  rw [h] at hd
  exact Bool.noConfusion hd

theorem isSpace_eq_false_of_isWordChar {c : Char} (h : isWordChar c = true) :
    isSpace c = false := by
  have hblank := ne_of_isWordChar h (d := ' ') (by decide)
  have htab := ne_of_isWordChar h (d := '\t') (by decide)
  have hreturn := ne_of_isWordChar h (d := '\r') (by decide)
  simp [isSpace, hblank, htab, hreturn]

/-! ### Pieces -/

theorem lexes_nil : Lexes [] [] := fun _ => ⟨[], by rw [tokensFrom], rfl⟩

theorem Lexes.token {c : Char} {rest : List Char} {t : Token} {n : Nat} {ts : List Token}
    (hpiece : firstPiece c rest = (.token t, n)) (h : Lexes (rest.drop n) ts) :
    Lexes (c :: rest) (t :: ts) := by
  intro start
  obtain ⟨lexemes, htokens, rfl⟩ := h (start + byteLength (c :: rest.take n))
  refine ⟨⟨t, ⟨start, start + byteLength (c :: rest.take n)⟩⟩ :: lexemes, ?_, rfl⟩
  rw [tokensFrom, hpiece]
  change Except.map _ (tokensFrom _ (rest.drop n)) = _
  rw [htokens]
  rfl

theorem Lexes.skipped {c : Char} {rest : List Char} {n : Nat} {ts : List Token}
    (hpiece : firstPiece c rest = (.skipped, n)) (h : Lexes (rest.drop n) ts) :
    Lexes (c :: rest) ts := by
  intro start
  obtain ⟨lexemes, htokens, hts⟩ := h (start + byteLength (c :: rest.take n))
  refine ⟨lexemes, ?_, hts⟩
  rw [tokensFrom, hpiece]
  exact htokens

/-- The tokens at one start are the tokens at every start. -/
theorem lexes_of_tokensFrom {start : Nat} {cs : List Char} {lexemes : List Lexeme}
    (h : tokensFrom start cs = .ok lexemes) : Lexes cs (lexemes.map Lexeme.token) := by
  fun_induction tokensFrom start cs generalizing lexemes with
  | case1 =>
    cases h
    exact lexes_nil
  | case2 _ c rest n stop hpiece =>
    rename_i ih
    exact .skipped hpiece (ih h)
  | case3 _ c rest n stop t hpiece =>
    rename_i ih
    cases htokens : tokensFrom stop (rest.drop n) with
    | error span =>
      rw [htokens] at h
      cases h
    | ok more =>
      rw [htokens] at h
      cases h
      exact .token hpiece (ih htokens)
  | case4 => cases h

theorem lexes_drop_of_skipped {c : Char} {rest : List Char} {n : Nat} {ts : List Token}
    (hpiece : firstPiece c rest = (.skipped, n)) (h : Lexes (c :: rest) ts) :
    Lexes (rest.drop n) ts := by
  obtain ⟨lexemes, htokens, rfl⟩ := h 0
  rw [tokensFrom, hpiece] at htokens
  exact lexes_of_tokensFrom htokens

theorem byteLength_append (cs ds : List Char) : byteLength (cs ++ ds) = byteLength cs + byteLength ds := by
  rw [byteLength, List.map_append, total_append]
  rfl

theorem utf8ByteSize_ofList (cs : List Char) : (String.ofList cs).utf8ByteSize = byteLength cs := by
  induction cs with
  | nil => rfl
  | cons c cs ih =>
    have hcons : String.ofList (c :: cs) = String.singleton c ++ String.ofList cs := by
      apply String.toList_injective
      simp
    rw [hcons, String.utf8ByteSize_append, ih, String.utf8ByteSize_singleton]
    rfl

/-- Holds of a token that is the first piece of the characters that are left at its place. -/
def CutFrom (start : Nat) (cs : List Char) (l : Lexeme) : Prop :=
  ∃ front c rest n, cs = front ++ c :: rest ∧ firstPiece c rest = (.token l.token, n) ∧
    l.span = ⟨start + byteLength front, start + byteLength (front ++ c :: rest.take n)⟩

theorem CutFrom.behind {start n : Nat} {c : Char} {rest : List Char} {l : Lexeme}
    (h : CutFrom (start + byteLength (c :: rest.take n)) (rest.drop n) l) : CutFrom start (c :: rest) l := by
  obtain ⟨front, d, more, m, hdrop, hpiece, hspan⟩ := h
  refine ⟨c :: rest.take n ++ front, d, more, m, ?_, hpiece, ?_⟩
  · rw [List.append_assoc, ← hdrop, List.cons_append, List.take_append_drop]
  · simp only [hspan, byteLength_append, List.append_assoc, Nat.add_assoc]

theorem cutFrom_of_mem {start : Nat} {cs : List Char} {lexemes : List Lexeme}
    (h : tokensFrom start cs = .ok lexemes) {l : Lexeme} (hl : l ∈ lexemes) : CutFrom start cs l := by
  fun_induction tokensFrom start cs generalizing lexemes with
  | case1 =>
    cases h
    cases hl
  | case2 =>
    rename_i ih
    exact (ih h hl).behind
  | case3 _ c rest n stop t hpiece =>
    rename_i ih
    cases htokens : tokensFrom stop (rest.drop n) with
    | error span =>
      rw [htokens] at h
      cases h
    | ok more =>
      rw [htokens] at h
      cases h
      rcases List.mem_cons.mp hl with rfl | hmore
      · exact ⟨[], c, rest, n, rfl, hpiece, rfl⟩
      · exact (ih htokens hmore).behind
  | case4 => cases h

/-! ### Blanks and marks -/

theorem firstPiece_space {c : Char} (hc : isSpace c = true) (rest : List Char) :
    firstPiece c rest = (.skipped, (rest.takeWhile isSpace).length) := by
  rw [firstPiece, if_pos hc]

theorem drop_length_takeWhile (p : Char → Bool) (cs : List Char) :
    cs.drop (cs.takeWhile p).length = cs.dropWhile p := by
  induction cs with
  | nil => rfl
  | cons c cs ih => by_cases hc : p c = true <;> simp [hc, ih]

/-- A blank more in front makes no difference. -/
theorem Lexes.space {cs : List Char} {ts : List Token} (h : Lexes cs ts) :
    Lexes (' ' :: cs) ts := by
  refine .skipped (firstPiece_space (by decide) cs) ?_
  rw [drop_length_takeWhile]
  cases cs with
  | nil => exact h
  | cons c cs =>
    by_cases hc : isSpace c = true
    · have hrest := lexes_drop_of_skipped (firstPiece_space hc cs) h
      rw [drop_length_takeWhile] at hrest
      rwa [List.dropWhile_cons_of_pos hc]
    · rwa [List.dropWhile_cons_of_neg hc]

theorem Lexes.spaces {cs : List Char} {ts : List Token} (n : Nat) (h : Lexes cs ts) :
    Lexes (List.replicate n ' ' ++ cs) ts := by
  induction n with
  | zero => exact h
  | succ n ih => exact ih.space

theorem Lexes.newline {cs : List Char} {ts : List Token} (h : Lexes cs ts) :
    Lexes ('\n' :: cs) (.newline :: ts) := .token rfl h

theorem Lexes.openBrace {cs : List Char} {ts : List Token} (h : Lexes cs ts) :
    Lexes ('\x7b' :: cs) (.openBrace :: ts) := .token rfl h

theorem Lexes.closeBrace {cs : List Char} {ts : List Token} (h : Lexes cs ts) :
    Lexes ('\x7d' :: cs) (.closeBrace :: ts) := .token rfl h

/-! ### Words -/

theorem firstPiece_word {c : Char} (hc : isWordChar c = true) (rest : List Char) :
    firstPiece c rest =
      (.token (wordToken (c :: rest.takeWhile isWordChar)),
        (rest.takeWhile isWordChar).length) := by
  have hmark (d : Char) (hd : isWordChar d = false) : c ≠ d := ne_of_isWordChar hc hd
  rw [firstPiece, if_neg (by rw [isSpace_eq_false_of_isWordChar hc]; exact Bool.false_ne_true),
    if_neg (hmark '#' (by decide)), if_neg (hmark '\x7b' (by decide)),
    if_neg (hmark '\x7d' (by decide)), if_neg (hmark '\n' (by decide)),
    if_neg (hmark '"' (by decide)), if_pos hc]

theorem Lexes.word {w cs : List Char} {ts : List Token} (hne : w ≠ [])
    (hw : ∀ c ∈ w, isWordChar c = true) (hend : WordEnds cs) (h : Lexes cs ts) :
    Lexes (w ++ cs) (wordToken w :: ts) := by
  obtain ⟨c, w, rfl⟩ := List.exists_cons_of_ne_nil hne
  have hmore : (w ++ cs).takeWhile isWordChar = w := by
    rw [List.takeWhile_append_of_pos fun d hd => hw d (List.mem_cons_of_mem c hd)]
    cases cs with
    | nil => simp
    | cons d cs => simp [hend d rfl]
  have hpiece := firstPiece_word (hw c List.mem_cons_self) (w ++ cs)
  rw [hmore] at hpiece
  have hrest : (w ++ cs).drop w.length = cs := List.drop_left
  rw [← hrest] at h
  exact .token hpiece h

/-! ### Quoted texts -/

theorem quotedExtent_escape (c : Char) (rest : List Char) :
    quotedExtent (Quoted.escape c ++ rest) =
      ((quotedExtent rest).1, (quotedExtent rest).2 + (Quoted.escape c).length) := by
  unfold Quoted.escape
  split
  case h_6 hbackslash hquote _ _ _ =>
    rw [List.singleton_append, quotedExtent.eq_5 c rest hquote (fun h _ => hbackslash h)
      (fun _ _ h _ => hbackslash h)]
    rfl
  all_goals rfl

theorem quotedExtent_flatMap_escape (cs rest : List Char) :
    quotedExtent (cs.flatMap Quoted.escape ++ '"' :: rest) =
      (true, (cs.flatMap Quoted.escape).length + 1) := by
  induction cs with
  | nil => rw [List.flatMap_nil, List.nil_append, quotedExtent, List.length_nil]
  | cons c cs ih =>
    rw [List.flatMap_cons, List.append_assoc, quotedExtent_escape, ih, List.length_append]
    simp only [Prod.mk.injEq, true_and]
    omega

theorem Lexes.quoted {cs : List Char} {ts : List Token} (s : List Char) (h : Lexes cs ts) :
    Lexes ('"' :: (s.flatMap Quoted.escape ++ '"' :: cs))
      (.word ⟨.quoted, String.ofList s⟩ :: ts) := by
  have hpiece : firstPiece '"' (s.flatMap Quoted.escape ++ '"' :: cs) =
      (.token (.word ⟨.quoted, String.ofList s⟩), (s.flatMap Quoted.escape).length + 1) := by
    have hinner : (s.flatMap Quoted.escape ++ '"' :: cs).take (s.flatMap Quoted.escape).length =
        s.flatMap Quoted.escape := List.take_left
    simp only [firstPiece, quotedExtent_flatMap_escape, Nat.add_sub_cancel, hinner,
      Quoted.decode_flatMap_escape]
    rfl
  refine .token hpiece ?_
  rwa [List.append_cons, List.drop_left' (by simp)]

/-! ### Texts in the place of words -/

/-- The word that a text is read back as when it is written bare. -/
def bareWord (s : String) : Word := ⟨if s.toList.all Char.isDigit then .digits else .plain, s⟩

/-- The word that a text is read back as. -/
def writtenWord (s : String) : Word := if Quoted.needsQuotes s then ⟨.quoted, s⟩ else bareWord s

/-- Holds of the texts that are words when they are written bare. -/
def isBare (s : String) : Bool := !s.isEmpty && s.toList.all isWordChar && s != "none"

/-- Holds of the texts that are words when they are written. -/
def isWritable (s : String) : Bool := Quoted.needsQuotes s || isBare s

theorem encode_of_isBare {s : String} (h : isBare s = true) : Quoted.encode s = s := by
  simp only [isBare, Bool.and_eq_true, Bool.not_eq_true', List.all_eq_true] at h
  have hblank : s.toList.any Text.isBlank = false := by
    rw [List.any_eq_false]
    intro c hc
    rw [isBlank_eq_false_of_isWordChar (h.1.2 c hc)]
    exact Bool.false_ne_true
  rw [Quoted.encode, Quoted.needsQuotes, h.1.1, hblank]
  rfl

theorem isWritable_of_isBare {s : String} (h : isBare s = true) : isWritable s = true := by
  rw [isWritable, h, Bool.or_true]

theorem writtenWord_text (s : String) : (writtenWord s).text = s := by
  unfold writtenWord
  split <;> rfl

theorem wordToken_of_isBare {s : String} (h : isBare s = true) :
    wordToken s.toList = .word (bareWord s) := by
  simp only [isBare, Bool.and_eq_true, bne_iff_ne, ne_eq] at h
  have hnone : s.toList ≠ "none".toList := fun heq => h.2 (String.toList_injective heq)
  rw [wordToken, if_neg hnone, bareWord, String.ofList_toList]
  split <;> rfl

theorem Lexes.bare {s : String} {cs : List Char} {ts : List Token} (hs : isBare s = true)
    (hend : WordEnds cs) (h : Lexes cs ts) :
    Lexes (s.toList ++ cs) (.word (bareWord s) :: ts) := by
  rw [← wordToken_of_isBare hs]
  simp only [isBare, Bool.and_eq_true, Bool.not_eq_true', List.all_eq_true] at hs
  refine .word ?_ hs.1.2 hend h
  intro hnil
  have hempty : s = "" := String.toList_eq_nil_iff.mp hnil
  simp [hempty] at hs

/-- A word in front of a blank. -/
theorem Lexes.bare_space {s : String} {cs : List Char} {ts : List Token} (hs : isBare s = true) (h : Lexes cs ts) :
    Lexes (s.toList ++ ' ' :: cs) (.word (bareWord s) :: ts) :=
  .bare hs (wordEnds_cons (by decide) _) h.space

theorem Lexes.written {s : String} {cs : List Char} {ts : List Token} (hs : isWritable s = true)
    (hend : WordEnds cs) (h : Lexes cs ts) :
    Lexes ((Quoted.encode s).toList ++ cs) (.word (writtenWord s) :: ts) := by
  rw [Quoted.encode, writtenWord]
  by_cases hquotes : Quoted.needsQuotes s = true
  · rw [if_pos hquotes, if_pos hquotes]
    have hquoted := Lexes.quoted s.toList h
    rw [String.ofList_toList] at hquoted
    simpa using hquoted
  · rw [if_neg hquotes, if_neg hquotes]
    have hbare : isBare s = true := by simpa [isWritable, hquotes] using hs
    exact .bare hbare hend h

end ApplianceConfig.Grammar
