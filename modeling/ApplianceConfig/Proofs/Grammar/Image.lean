import ApplianceConfig.Proofs.Document.Parsed
import ApplianceConfig.Proofs.Document.RoundTrip
import ApplianceConfig.Proofs.Grammar.Words
import Mathlib

/-!
# What can be read

Whatever the reader holds is made of words that it has read, in each of its states and after each token. A chain ends with a value, as only the end of a line leaves a key alone, and then there is no chain.

The words of a text without quotation marks are all bare. Its document is therefore read back from what it is written as.
-/

namespace ApplianceConfig

open Grammar

variable {words : Word → Prop} {place : Place}

/-! ### Values of words -/

/-- Holds of sorts of words among which no number is negative. -/
def Unsigned (words : Word → Prop) : Prop := ∀ w n, words w → w.value = .int n → 0 ≤ n.toInt

theorem Value.ReadFrom.word (hunsigned : Unsigned words) {w : Word} (hw : words w) :
    w.value.ReadFrom words place := by
  have hvalue : (∃ b, w.value = .bool b) ∨ (∃ n, w.value = .int n) ∨ ∃ s, w.value = .text s := by
    unfold Word.value Value.ofWord Value.ofDigits
    split
    · split <;> [exact .inl ⟨_, rfl⟩; split <;> simp]
    · split <;> simp
    · simp
  obtain ⟨b, hvalue⟩ | ⟨n, hvalue⟩ | ⟨s, hvalue⟩ := hvalue
  · rw [hvalue]
    exact .bool hw hvalue
  · rw [hvalue]
    exact .int hw hvalue (hunsigned w n hw hvalue)
  · rw [hvalue]
    exact .text hw hvalue

theorem Value.ReadFrom.behind (hplace : place ≠ .block) {key : String} (hkey : Named words key) {value : Value}
    (hvalue : value.ReadFrom words .chain) : (Value.map .chained [(key, value)]).ReadFrom words place :=
  have hsingle := Entries.ReadFrom.single hkey hvalue
  .chain hplace (List.cons_ne_nil _ _) hsingle.nodup hsingle.names hsingle.values

/-- A line's words behind its first key are a chain unless there is at most one of them. -/
theorem readFrom_lineValue (hunsigned : Unsigned words) (hplace : place ≠ .block) {more : List Word}
    (hwords : ∀ w ∈ more, words w) (htoggle : more = [] → place ≠ .chain) :
    (lineValue more).ReadFrom words place := by
  induction more generalizing place with
  | nil => exact .toggle (htoggle rfl)
  | cons w rest ih =>
    obtain ⟨hw, hrest⟩ := List.forall_mem_cons.mp hwords
    cases rest with
    | nil => exact .word hunsigned hw
    | cons next rest => exact .behind hplace ⟨w, hw, rfl⟩ (ih nofun hrest nofun)

theorem readFrom_chain (hplace : place ≠ .block) {keys : List String} (hkeys : ∀ key ∈ keys, Named words key)
    {value : Value} (hvalue : ∀ place, value.ReadFrom words place) : (chain keys value).ReadFrom words place := by
  induction keys generalizing place with
  | nil => exact hvalue place
  | cons key keys ih =>
    obtain ⟨hkey, hkeys⟩ := List.forall_mem_cons.mp hkeys
    exact .behind hplace hkey (ih nofun hkeys)

/-! ### States of the reader -/

namespace Grammar

/-- Holds of blocks whose entries, words and key are read from words. -/
inductive Block.ReadFrom (words : Word → Prop) : Block → Prop
  | fresh {ws : List Word} (hws : ∀ w ∈ ws, words w) : ReadFrom words (.fresh ws)
  | between {entries : Entries} (h : entries.ReadFrom words .block) : ReadFrom words (.between entries)
  | keyed {entries : Entries} {key : String} (h : entries.ReadFrom words .block) (hkey : Named words key) :
      ReadFrom words (.keyed entries key)

structure Outer.ReadFrom (words : Word → Prop) (o : Outer) : Prop where
  entries : o.entries.ReadFrom words .block
  key : Named words o.key

/-- The value that a block ends with can stand at any place. -/
inductive Move.ReadFrom (words : Word → Prop) : Move → Prop
  | stay {block : Block} (h : block.ReadFrom words) : ReadFrom words (.stay block)
  | descend {o : Outer} (h : o.ReadFrom words) : ReadFrom words (.descend o)
  | finish {value : Value} (h : ∀ place, value.ReadFrom words place) : ReadFrom words (.finish value)

inductive State.ReadFrom (words : Word → Prop) : State → Prop
  | between {doc : Entries} (hdoc : doc.ReadFrom words .line) : ReadFrom words (.between doc)
  | keyed {doc : Entries} {key : String} {more : List Word} (hdoc : doc.ReadFrom words .line)
      (hkey : Named words key) (hmore : ∀ w ∈ more, words w) : ReadFrom words (.keyed doc key more)
  | ended {doc : Entries} (hdoc : doc.ReadFrom words .line) : ReadFrom words (.ended doc)
  | inside {doc : Entries} {key : String} {more : List String} {outer : List Outer} {block : Block}
      (hdoc : doc.ReadFrom words .line) (hkey : Named words key) (hmore : ∀ key ∈ more, Named words key)
      (houter : ∀ o ∈ outer, o.ReadFrom words) (hblock : block.ReadFrom words) :
      ReadFrom words (.inside doc key more outer block)

theorem readFrom_group {entries : Entries} (h : entries.ReadFrom words .block) (place : Place) :
    (Value.block entries).ReadFrom words place := .group h.nodup h.names h.values

theorem pairUp_readFrom (hunsigned : Unsigned words) {ws : List Word} (hws : ∀ w ∈ ws, words w) :
    (∀ e ∈ (pairUp ws).1, Named words e.1 ∧ e.2.ReadFrom words .block) ∧
      ∀ key ∈ (pairUp ws).2, Named words key := by
  fun_induction pairUp ws with
  | case1 => exact ⟨nofun, nofun⟩
  | case2 k =>
    refine ⟨nofun, ?_⟩
    rintro key ⟨⟩
    exact ⟨k, hws k List.mem_cons_self, rfl⟩
  | case3 k v rest ih =>
    obtain ⟨hk, hv, hrest⟩ : words k ∧ words v ∧ ∀ w ∈ rest, words w := by simpa using hws
    obtain ⟨hentries, hkey⟩ := ih hrest
    exact ⟨List.forall_mem_cons.mpr ⟨⟨⟨k, hk, rfl⟩, .word hunsigned hv⟩, hentries⟩, hkey⟩

theorem Block.ReadFrom.settle (hunsigned : Unsigned words) {block : Block} (h : block.ReadFrom words) :
    block.settle.ReadFrom words := by
  cases h with
  | @fresh ws hws =>
    obtain ⟨hentries, hkey⟩ := pairUp_readFrom hunsigned hws
    have hmerged : Entries.ReadFrom words .block (mergeInto (pairUp ws).1 []) :=
      Entries.ReadFrom.nil.merge (fun e he => (hentries e he).1) fun e he => (hentries e he).2
    rw [Block.settle]
    rcases hpairs : pairUp ws with ⟨entries, _ | key⟩
    · rw [hpairs] at hmerged
      exact .between hmerged
    · rw [hpairs] at hmerged hkey
      exact .keyed hmerged (hkey key rfl)
  | between hentries => exact .between hentries
  | keyed hentries hkey => exact .keyed hentries hkey

theorem Block.ReadFrom.stepEntries (hunsigned : Unsigned words) {block : Block} (h : block.ReadFrom words)
    {t : Token} (ht : ∀ w, t = .word w → words w) {move : Move} (hstep : block.stepEntries t = some move) :
    move.ReadFrom words := by
  cases h with
  | fresh hws => cases t <;> cases hstep
  | between hentries =>
    cases t with
    | newline =>
      cases hstep
      exact .stay (.between hentries)
    | word w =>
      cases hstep
      exact .stay (.keyed hentries ⟨w, ht w rfl, rfl⟩)
    | closeBrace =>
      cases hstep
      exact .finish (readFrom_group hentries)
    | openBrace | null => cases hstep
  | keyed hentries hkey =>
    cases t with
    | newline =>
      cases hstep
      exact .stay (.between (hentries.mergeEntry hkey (.toggle nofun)))
    | word w =>
      cases hstep
      exact .stay (.between (hentries.mergeEntry hkey (.word hunsigned (ht w rfl))))
    | null =>
      cases hstep
      exact .stay (.between (hentries.mergeEntry hkey .absent))
    | openBrace =>
      cases hstep
      exact .descend ⟨hentries, hkey⟩
    | closeBrace =>
      cases hstep
      exact .finish (readFrom_group (hentries.mergeEntry hkey (.toggle nofun)))

theorem Block.ReadFrom.step (hunsigned : Unsigned words) {block : Block} (h : block.ReadFrom words) {t : Token}
    (ht : ∀ w, t = .word w → words w) {move : Move} (hstep : block.step t = some move) :
    move.ReadFrom words := by
  unfold Block.step at hstep
  split at hstep
  next ws w =>
    cases h with
    | fresh hws =>
      cases hstep
      exact .stay (.fresh (List.forall_mem_append.mpr ⟨hws, by simpa using ht w rfl⟩))
  next w ws =>
    cases h with
    | fresh hws =>
      cases hstep
      refine .finish fun place => .set (by simp) fun item hitem => ?_
      obtain ⟨word, hword, rfl⟩ := List.mem_map.mp hitem
      exact ⟨word, hws word hword, rfl⟩
  next => exact (h.settle hunsigned).stepEntries hunsigned ht hstep

/-- A block's value goes into the block around it, or to the end of its line. -/
theorem State.ReadFrom.close {doc : Entries} {key : String} {more : List String} {outer : List Outer} {value : Value}
    (hdoc : doc.ReadFrom words .line) (hkey : Named words key) (hmore : ∀ key ∈ more, Named words key)
    (houter : ∀ o ∈ outer, o.ReadFrom words) (hvalue : ∀ place, value.ReadFrom words place) :
    (State.close doc key more value outer).ReadFrom words := by
  cases outer with
  | nil => exact .between (hdoc.mergeEntry hkey (readFrom_chain (by decide) hmore hvalue))
  | cons o outer =>
    obtain ⟨ho, houter⟩ := List.forall_mem_cons.mp houter
    exact .inside hdoc hkey hmore houter (.between (ho.entries.mergeEntry ho.key (hvalue .block)))

theorem named_of_mem_texts {ws : List Word} (hws : ∀ w ∈ ws, words w) :
    ∀ key ∈ ws.map Word.text, Named words key := by
  intro key hkey
  obtain ⟨w, hw, rfl⟩ := List.mem_map.mp hkey
  exact ⟨w, hws w hw, rfl⟩

/-- What has been read stays so with each token. -/
theorem State.ReadFrom.step (hunsigned : Unsigned words) {s next : State} (h : s.ReadFrom words) {t : Token}
    (ht : ∀ w, t = .word w → words w) (hstep : s.step t = some next) : next.ReadFrom words := by
  cases h with
  | between hdoc =>
    cases t with
    | newline =>
      cases hstep
      exact .between hdoc
    | word w =>
      cases hstep
      exact .keyed hdoc ⟨w, ht w rfl, rfl⟩ nofun
    | openBrace | closeBrace | null => cases hstep
  | keyed hdoc hkey hmore =>
    cases t with
    | newline =>
      cases hstep
      exact .between (hdoc.mergeEntry hkey (readFrom_lineValue hunsigned (by decide) hmore fun _ => by decide))
    | word w =>
      cases hstep
      exact .keyed hdoc hkey (List.forall_mem_append.mpr ⟨hmore, by simpa using ht w rfl⟩)
    | null =>
      cases hstep
      exact .ended (hdoc.mergeEntry hkey (readFrom_chain (by decide) (named_of_mem_texts hmore) fun _ => .absent))
    | openBrace =>
      cases hstep
      exact .inside hdoc hkey (named_of_mem_texts hmore) nofun (.fresh nofun)
    | closeBrace => cases hstep
  | ended hdoc =>
    cases t with
    | newline =>
      cases hstep
      exact .between hdoc
    | openBrace | closeBrace | null | word w => cases hstep
  | inside hdoc hkey hmore houter hblock =>
    rw [State.step, Option.map_eq_some_iff] at hstep
    obtain ⟨move, hmove, rfl⟩ := hstep
    cases hblock.step hunsigned ht hmove with
    | stay hblock => exact .inside hdoc hkey hmore houter hblock
    | descend ho => exact .inside hdoc hkey hmore (List.forall_mem_cons.mpr ⟨ho, houter⟩) (.fresh nofun)
    | finish hvalue => exact State.ReadFrom.close hdoc hkey hmore houter hvalue

theorem State.ReadFrom.finish? (hunsigned : Unsigned words) {s : State} (h : s.ReadFrom words) {doc : Entries}
    (hfinish : s.finish? = some doc) : doc.ReadFrom words .line := by
  cases h with
  | between hdoc | ended hdoc =>
    cases hfinish
    exact hdoc
  | keyed hdoc hkey hmore =>
    cases hfinish
    exact hdoc.mergeEntry hkey (readFrom_lineValue hunsigned (by decide) hmore fun _ => by decide)
  | inside => cases hfinish

/-- A document is read from the words of its tokens. -/
theorem State.ReadFrom.accept? (hunsigned : Unsigned words) {s : State} (h : s.ReadFrom words) {ts : List Token}
    (hts : ∀ w, .word w ∈ ts → words w) {doc : Entries} (haccept : s.accept? ts = some doc) :
    doc.ReadFrom words .line := by
  induction ts generalizing s with
  | nil => exact h.finish? hunsigned haccept
  | cons t ts ih =>
    rw [State.accept?, Option.bind_eq_some_iff] at haccept
    obtain ⟨next, hstep, hrest⟩ := haccept
    refine ih (h.step hunsigned ?_ hstep) (fun w hw => hts w (List.mem_cons_of_mem t hw)) hrest
    rintro w rfl
    exact hts w List.mem_cons_self

/-! ### Words of a text -/

/-- Holds of words that are cut from a text: between quotation marks or bare. -/
def Word.FromText (w : Word) : Prop := w.form = .quoted ∨ ∃ s, isBare s = true ∧ w = bareWord s

theorem fromText_of_wordToken {c : Char} {more : List Char} (h : ∀ d ∈ c :: more, isWordChar d = true) {w : Word}
    (hw : wordToken (c :: more) = .word w) : w.FromText := by
  let s := String.ofList (c :: more)
  have hword : isWordText s = true := by
    rw [isWordText, String.toList_ofList]
    exact List.all_eq_true.mpr h
  have hempty : s ≠ "" := by simp [s]
  have hnone : s ≠ "none" := by
    intro hs
    have htext : c :: more = "none".toList := by
      rw [← hs, String.toList_ofList]
    rw [htext] at hw
    cases hw
  have hbare := isBare_of_isWordText hword hempty hnone
  have htoken := wordToken_of_isBare hbare
  rw [String.toList_ofList, hw, Token.word.injEq] at htoken
  exact .inr ⟨s, hbare, htoken⟩

theorem fromText_of_firstPiece {c : Char} {rest : List Char} {w : Word} {n : Nat}
    (h : firstPiece c rest = (.token (.word w), n)) : w.FromText := by
  by_cases hc : isWordChar c = true
  · rw [firstPiece_word hc, Prod.mk.injEq, Piece.token.injEq] at h
    refine fromText_of_wordToken (List.forall_mem_cons.mpr ⟨hc, fun d hd => ?_⟩) h.1
    exact List.all_eq_true.mp List.all_takeWhile d hd
  · unfold firstPiece at h
    split_ifs at h <;> grind [Word.FromText]

theorem fromText_of_mem_tokens {text : String} {lexemes : List Lexeme} (h : tokens text = .ok lexemes) {w : Word}
    (hw : .word w ∈ lexemes.map Lexeme.token) : w.FromText := by
  obtain ⟨l, hl, htoken⟩ := List.mem_map.mp hw
  obtain ⟨front, c, rest, n, -, hpiece, -⟩ := cutFrom_of_mem h hl
  rw [htoken] at hpiece
  exact fromText_of_firstPiece hpiece

theorem toInt_nonneg_of_isDigit {s : String} (hne : s.toList ≠ []) (h : ∀ c ∈ s.toList, c.isDigit = true) {n : Int64}
    (hn : Text.int64? s = some n) : 0 ≤ n.toInt := by
  rw [Text.int64?, signed?_of_isDigit hne h, Option.bind_some, Text.toInt64?] at hn
  split at hn
  next hbounds =>
    cases hn
    have hmax := hbounds.2
    rw [Int64.toInt_maxValue] at hmax
    rw [Int64.toInt_ofInt_of_le (by omega) (by omega)]
    exact Int.natCast_nonneg _
  next => cases hn

/-- The numbers of a text have no sign: a minus sign makes a bare word of the digits behind it. -/
theorem unsigned_of_fromText (hwords : ∀ w, words w → w.FromText) : Unsigned words := by
  intro w n hw hvalue
  obtain hquoted | ⟨s, hbare, rfl⟩ := hwords w hw
  · obtain ⟨form, text⟩ := w
    cases hquoted
    cases hvalue
  · rw [bareWord] at hvalue
    by_cases hdigits : s.toList.all Char.isDigit = true
    · rw [if_pos hdigits, Word.value, Value.ofDigits] at hvalue
      split at hvalue
      next m hm =>
        cases hvalue
        refine toInt_nonneg_of_isDigit ?_ (List.all_eq_true.mp hdigits) hm
        intro hnil
        rw [isBare, String.toList_eq_nil_iff.mp hnil] at hbare
        cases hbare
      next => cases hvalue
    · rw [if_neg hdigits, Word.value, Value.ofWord] at hvalue
      split_ifs at hvalue

end Grammar

namespace Document

/-- What parsing gives: a document in braces whose keys are distinct on every level, with words of the text behind them, chains that end with a value on lines only, and no raw text, empty set or negative number. If no word of the text is quoted, the document is read back from what it is written as. -/
theorem parse_image {text : String} {doc : Document} (h : Document.parse text = .ok doc) :
    ∃ lexemes, tokens text = .ok lexemes ∧ doc.style = .braced ∧
      doc.entries.ReadFrom (fun w => .word w ∈ lexemes.map Lexeme.token) .line ∧
      ((∀ s, .word ⟨.quoted, s⟩ ∉ lexemes.map Lexeme.token) →
        ∀ indent, Document.parse (doc.encode indent) = .ok doc) := by
  unfold Document.parse at h
  split at h
  next => cases h
  next lexemes hlex =>
    split at h
    next entries hread =>
      cases h
      rw [read_eq_ok_iff] at hread
      have hfrom := fun w => @fromText_of_mem_tokens _ _ hlex w
      have hentries := (State.ReadFrom.between .nil).accept? (unsigned_of_fromText hfrom) (fun _ hw => hw) hread
      refine ⟨lexemes, hlex, rfl, hentries, fun hquoted indent => ?_⟩
      have hbare : Bare fun w => .word w ∈ lexemes.map Lexeme.token := by
        intro w hw
        obtain hform | hbare := hfrom w hw
        · obtain ⟨form, s⟩ := w
          cases hform
          exact absurd hw (hquoted s)
        · exact hbare
      have hdistinct : Document.distinct { entries } = true :=
        distinctEntries_of_nodup hentries.nodup fun e he => (hentries.values e he).distinct
      have hwritable : Document.writable { entries } = true := writableEntries_of_forall fun e he =>
        ⟨isBare_of_named hbare (hentries.names e he), (hentries.values e he).writable hbare⟩
      rw [parse_encode_eq hdistinct hwritable, rereadEntries_of_forall fun e he => (hentries.values e he).reread_eq]
    next => cases h

/-- Two lines of one chain, one with a group and one with a set, and a key alone. -/
theorem parse_image_merged :
    let text := "a b \x7b\nc 07 \x7d\na f \x7b x y \x7d\nlone"
    let doc : Document :=
      { entries :=
          [("a", .map .chained [("b", .map .braced [("c", .int 7)]), ("f", .set ["x", "y"])]), ("lone", .toggle)] }
    ∃ lexemes, tokens text = .ok lexemes ∧ Document.parse text = .ok doc ∧
      doc.entries.ReadFrom (fun w => .word w ∈ lexemes.map Lexeme.token) .line ∧
      ∀ indent, Document.parse (doc.encode indent) = .ok doc := by
  intro text doc
  have hlex : tokens text = .ok
      [⟨.word ⟨.plain, "a"⟩, ⟨0, 1⟩⟩, ⟨.word ⟨.plain, "b"⟩, ⟨2, 3⟩⟩, ⟨.openBrace, ⟨4, 5⟩⟩,
        ⟨.newline, ⟨5, 6⟩⟩, ⟨.word ⟨.plain, "c"⟩, ⟨6, 7⟩⟩, ⟨.word ⟨.digits, "07"⟩, ⟨8, 10⟩⟩, ⟨.closeBrace, ⟨11, 12⟩⟩,
        ⟨.newline, ⟨12, 13⟩⟩, ⟨.word ⟨.plain, "a"⟩, ⟨13, 14⟩⟩, ⟨.word ⟨.plain, "f"⟩, ⟨15, 16⟩⟩,
        ⟨.openBrace, ⟨17, 18⟩⟩, ⟨.word ⟨.plain, "x"⟩, ⟨19, 20⟩⟩, ⟨.word ⟨.plain, "y"⟩, ⟨21, 22⟩⟩,
        ⟨.closeBrace, ⟨23, 24⟩⟩, ⟨.newline, ⟨24, 25⟩⟩, ⟨.word ⟨.plain, "lone"⟩, ⟨25, 29⟩⟩] := by cbv
  have hparse : Document.parse text = .ok doc := by
    rw [Document.parse, hlex]
    cbv
  obtain ⟨lexemes, hlexemes, -, hentries, hround⟩ := parse_image hparse
  have hquoted : ∀ s, .word ⟨.quoted, s⟩ ∉ lexemes.map Lexeme.token := by
    rw [hlex] at hlexemes
    cases hlexemes
    simp
  exact ⟨lexemes, hlexemes, hparse, hentries, hround hquoted⟩

end Document

end ApplianceConfig
