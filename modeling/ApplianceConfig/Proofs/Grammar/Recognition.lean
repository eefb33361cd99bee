import ApplianceConfig.Proofs.Grammar.Reading
import Mathlib.Data.List.Induction

/-!
# The reader accepts exactly the grammar

What has been read leaves a demand on what follows: a line has to be brought to its end, a block and every block around it closed, and the remaining lines read. The demand of each state is written down in terms of the grammar. One step of the reader meets the demand of the state in front of it when the demand of the state behind it is met, so every sequence that is read to its end has an ordered derivation behind it.
-/

namespace ApplianceConfig.Grammar

/-- Tokens that end a group some of whose entries have been read. -/
def ClosesEntries (entries : Entries) (ts : List Token) (v : Value) (rest : List Token) : Prop :=
  ∃ us members, Newlines ts us ∧ Members.Derives .ordered us members (.closeBrace :: rest) ∧
    v = .block (mergeInto members entries)

/-- Tokens that end a block part of which has been read. -/
def Block.Closes (ts : List Token) (v : Value) (rest : List Token) : Block → Prop
  | .fresh words => Block.Derives .ordered (.openBrace :: (words.map .word ++ ts)) v rest
  | .between entries => ClosesEntries entries ts v rest
  | .keyed entries key => ∃ w us, EntryTail.Derives .ordered ts w us ∧
      ClosesEntries (entries.mergeEntry key w) us v rest

/-- Tokens that end a block behind one more step. -/
def Move.Closes (ts : List Token) (v : Value) (rest : List Token) : Move → Prop
  | .stay block => block.Closes ts v rest
  | .descend o => ∃ w us, Block.Derives .ordered (.openBrace :: ts) w us ∧
      ClosesEntries (o.entries.mergeEntry o.key w) us v rest
  | .finish w => v = w ∧ rest = ts

/-- Tokens that end the blocks around one that has ended. -/
def Unwinds (v : Value) (ts : List Token) (w : Value) (rest : List Token) : List Outer → Prop
  | [] => w = v ∧ rest = ts
  | o :: outer => ∃ u us, ClosesEntries (o.entries.mergeEntry o.key v) ts u us ∧
      Unwinds u us w rest outer

/-- Tokens that are lines up to the end, behind lines that gave some entries already. -/
def EndsDocument (doc : Entries) (ts : List Token) (result : Entries) : Prop :=
  ∃ us lines, Newlines ts us ∧ Lines.Derives .ordered us lines ∧ result = mergeInto lines doc

/-- What a state demands of the tokens that follow. -/
def State.Demands (ts : List Token) (result : Entries) : State → Prop
  | .between doc => EndsDocument doc ts result
  | .keyed doc key words => ∃ v rest, LineTail.Derives .ordered (words.map .word ++ ts) v rest ∧
      EndsDocument (doc.mergeEntry key v) rest result
  | .ended doc => LineEnds ts ∧ EndsDocument doc ts result
  | .inside doc key more outer block => ∃ v us w rest, block.Closes ts v us ∧
      Unwinds v us w rest outer ∧ EndsDocument (doc.mergeEntry key (chain more w)) rest result

/-! ### Blocks -/

theorem ClosesEntries.newline {entries : Entries} {ts rest : List Token} {v : Value}
    (h : ClosesEntries entries ts v rest) : ClosesEntries entries (.newline :: ts) v rest := by
  obtain ⟨us, members, hlead, hmembers, hv⟩ := h
  exact ⟨us, members, .skip hlead, hmembers, hv⟩

theorem ClosesEntries.close (entries : Entries) (ts : List Token) :
    ClosesEntries entries (.closeBrace :: ts) (.block entries) ts :=
  ⟨_, [], .done, .done, rfl⟩

theorem ClosesEntries.entry {entries : Entries} {w : Word} {v u : Value} {ts us rest : List Token}
    (htail : EntryTail.Derives .ordered ts u us)
    (h : ClosesEntries (entries.mergeEntry w.text u) us v rest) :
    ClosesEntries entries (.word w :: ts) v rest := by
  obtain ⟨vs, members, hlines, hmembers, rfl⟩ := h
  refine ⟨_, _, .done, .entry htail hlines hmembers, ?_⟩
  rw [Entries.mergeEntry, ← mergeInto_append]
  rfl

/-- A group behind its brace, unless it can be a set. -/
theorem ClosesEntries.group {ts rest : List Token} {v : Value} (h : ClosesEntries [] ts v rest)
    (hkeys : ¬ KeysOnly ts) : Block.Derives .ordered (.openBrace :: ts) v rest := by
  obtain ⟨us, members, hlead, hmembers, rfl⟩ := h
  rw [← collect_eq_mergeInto]
  exact .group (fun _ => hkeys) hlead hmembers

namespace Block

theorem closes_of_stepEntries {block : Block} {t : Token} {move : Move} {ts rest : List Token}
    {v : Value} (hstep : block.stepEntries t = some move) (hmove : move.Closes ts v rest) :
    block.Closes (t :: ts) v rest := by
  cases block with
  | fresh words => cases t <;> cases hstep
  | between entries =>
    cases t with
    | newline =>
      cases hstep
      exact ClosesEntries.newline hmove
    | word w =>
      cases hstep
      obtain ⟨u, us, htail, hrest⟩ := hmove
      exact .entry htail hrest
    | closeBrace =>
      cases hstep
      obtain ⟨rfl, rfl⟩ := hmove
      exact .close entries rest
    | openBrace | null => cases hstep
  | keyed entries key =>
    cases t with
    | newline =>
      cases hstep
      exact ⟨_, _, .toggle trivial, ClosesEntries.newline hmove⟩
    | word w =>
      cases hstep
      exact ⟨_, _, .scalar rfl, hmove⟩
    | null =>
      cases hstep
      exact ⟨_, _, .scalar rfl, hmove⟩
    | openBrace =>
      cases hstep
      obtain ⟨w, us, hblock, hrest⟩ := hmove
      exact ⟨w, us, .block hblock, hrest⟩
    | closeBrace =>
      cases hstep
      obtain ⟨rfl, rfl⟩ := hmove
      exact ⟨_, _, .toggle trivial, .close _ rest⟩

/-- A settled block demands of what follows what a group demands of its words and what follows. -/
theorem closesEntries_of_settle {words : List Word} {ts rest : List Token} {v : Value}
    (h : (settle (.fresh words)).Closes ts v rest) :
    ClosesEntries [] (words.map .word ++ ts) v rest := by
  induction words using List.reverseRecOn generalizing ts with
  | nil => exact h
  | append_singleton words w ih =>
    have hback := @closes_of_stepEntries _ _ _ ts _ _ (settle_step_word words w) h
    simpa using ih hback

theorem not_keysOnly {words : List Word} {t : Token} {ts : List Token} (hword : ∀ w, t ≠ .word w)
    (hclose : t = .closeBrace → words = []) : ¬ KeysOnly (words.map .word ++ t :: ts) := by
  rintro ⟨keys, rest, hne, heq⟩
  induction words generalizing keys with
  | nil =>
    obtain ⟨key, keys, rfl⟩ := List.exists_cons_of_ne_nil hne
    simp only [List.map_nil, List.nil_append, List.map_cons, List.cons_append,
      List.cons.injEq] at heq
    exact hword key heq.1
  | cons w words ih =>
    obtain ⟨key, keys, rfl⟩ := List.exists_cons_of_ne_nil hne
    simp only [List.map_cons, List.cons_append, List.cons.injEq] at heq
    cases keys with
    | nil =>
      cases words with
      | nil =>
        simp only [List.map_nil, List.nil_append, List.cons.injEq] at heq
        exact absurd (hclose heq.2.1) (List.cons_ne_nil _ _)
      | cons w' words => simp at heq
    | cons key' keys =>
      refine ih (fun h => absurd (hclose h) (List.cons_ne_nil _ _)) (key' :: keys)
        (List.cons_ne_nil _ _) heq.2

theorem closes_of_step {block : Block} {t : Token} {move : Move} {ts rest : List Token} {v : Value}
    (hstep : block.step t = some move) (hmove : move.Closes ts v rest) :
    block.Closes (t :: ts) v rest := by
  cases block with
  | between entries => exact closes_of_stepEntries hstep hmove
  | keyed entries key => exact closes_of_stepEntries hstep hmove
  | fresh words =>
    -- a token that is no word settles the block, except a brace that closes a set
    have hsettled (hword : ∀ w, t ≠ .word w) (hclose : t = .closeBrace → words = [])
        (hentries : (settle (.fresh words)).stepEntries t = some move) :
        Block.Closes (t :: ts) v rest (.fresh words) :=
      (closesEntries_of_settle (closes_of_stepEntries hentries hmove)).group
        (not_keysOnly hword hclose)
    cases t with
    | word w =>
      cases hstep
      simpa [Move.Closes, Closes] using hmove
    | closeBrace =>
      cases words with
      | nil => exact hsettled nofun (fun _ => rfl) hstep
      | cons w words =>
        cases hstep
        obtain ⟨rfl, rfl⟩ := hmove
        exact .set (List.cons_ne_nil _ _)
    | openBrace | newline | null => exact hsettled nofun nofun hstep

end Block

/-! ### Lines -/

theorem EndsDocument.newline {doc result : Entries} {ts : List Token}
    (h : EndsDocument doc ts result) : EndsDocument doc (.newline :: ts) result := by
  obtain ⟨us, lines, hlead, hlines, hresult⟩ := h
  exact ⟨us, lines, .skip hlead, hlines, hresult⟩

theorem EndsDocument.line {doc result : Entries} {w : Word} {v : Value} {ts rest : List Token}
    (htail : LineTail.Derives .ordered ts v rest)
    (h : EndsDocument (doc.mergeEntry w.text v) rest result) :
    EndsDocument doc (.word w :: ts) result := by
  obtain ⟨us, lines, hlead, hlines, rfl⟩ := h
  refine ⟨_, _, .done, .line htail hlead hlines, ?_⟩
  rw [Entries.mergeEntry, ← mergeInto_append]
  rfl

/-- Keys in front of a tail that does not just end the line. -/
theorem LineTail.Derives.behind {words : List Word} {ts rest : List Token} {v : Value}
    (h : LineTail.Derives .ordered ts v rest) (hts : ¬ LineEnds ts) :
    LineTail.Derives .ordered (words.map .word ++ ts) (Grammar.chain (words.map Word.text) v)
      rest := by
  induction words with
  | nil => exact h
  | cons w words ih =>
    refine .chain (fun _ => ?_) ih
    cases words with
    | nil => exact hts
    | cons w' words => exact id

/-- The words of a line that has ended. -/
theorem LineTail.Derives.words (words : List Word) {rest : List Token} (hend : LineEnds rest) :
    LineTail.Derives .ordered (words.map .word ++ rest) (lineValue words) rest := by
  induction words using List.reverseRecOn with
  | nil => exact .toggle hend
  | append_singleton words w =>
    rw [lineValue_append, List.map_append, List.append_assoc]
    exact .behind (.scalar rfl hend) id

namespace State

theorem demands_of_close {doc result : Entries} {key : String} {more : List String} {v : Value}
    {outer : List Outer} {ts : List Token} (h : (close doc key more v outer).Demands ts result) :
    ∃ w rest, Unwinds v ts w rest outer ∧
      EndsDocument (doc.mergeEntry key (chain more w)) rest result := by
  cases outer with
  | nil => exact ⟨v, ts, ⟨rfl, rfl⟩, h⟩
  | cons o outer =>
    obtain ⟨u, us, w, rest, hclose, hunwind, hend⟩ := h
    exact ⟨w, rest, ⟨u, us, hclose, hunwind⟩, hend⟩

/-- What a step leads to demands no less than the state in front of it. -/
theorem demands_of_step {s next : State} {t : Token} {ts : List Token} {result : Entries}
    (hstep : s.step t = some next) (h : next.Demands ts result) : s.Demands (t :: ts) result := by
  cases s with
  | between doc =>
    cases t with
    | newline =>
      cases hstep
      exact EndsDocument.newline h
    | word w =>
      cases hstep
      obtain ⟨v, rest, htail, hend⟩ := h
      exact .line htail hend
    | openBrace | closeBrace | null => cases hstep
  | keyed doc key words =>
    cases t with
    | newline =>
      cases hstep
      exact ⟨_, _, .words words trivial, EndsDocument.newline h⟩
    | word w =>
      cases hstep
      simpa [Demands] using h
    | null =>
      cases hstep
      obtain ⟨hline, hend⟩ := h
      exact ⟨_, _, .behind (.scalar rfl hline) id, hend⟩
    | openBrace =>
      cases hstep
      obtain ⟨v, us, w, rest, hclose, ⟨rfl, rfl⟩, hend⟩ := h
      exact ⟨_, _, .behind (.block hclose) id, hend⟩
    | closeBrace => cases hstep
  | ended doc =>
    cases t with
    | newline =>
      cases hstep
      exact ⟨trivial, EndsDocument.newline h⟩
    | openBrace | closeBrace | null | word w => cases hstep
  | inside doc key more outer block =>
    obtain ⟨move, hmove, rfl⟩ := Option.map_eq_some_iff.mp hstep
    cases move with
    | stay inner =>
      obtain ⟨v, us, w, rest, hclose, hunwind, hend⟩ := h
      exact ⟨v, us, w, rest, Block.closes_of_step hmove hclose, hunwind, hend⟩
    | descend o =>
      obtain ⟨u, us, w, rest, hclose, ⟨v, vs, hentries, hunwind⟩, hend⟩ := h
      exact ⟨v, vs, w, rest, Block.closes_of_step hmove ⟨u, us, hclose, hentries⟩, hunwind, hend⟩
    | finish v =>
      obtain ⟨w, rest, hunwind, hend⟩ := demands_of_close h
      exact ⟨v, ts, w, rest, Block.closes_of_step hmove ⟨rfl, rfl⟩, hunwind, hend⟩

theorem demands_of_finish? {s : State} {result : Entries} (h : s.finish? = some result) :
    s.Demands [] result := by
  have hnone (doc : Entries) : EndsDocument doc [] doc := ⟨[], [], .done, .done, rfl⟩
  cases s with
  | between doc =>
    cases h
    exact hnone _
  | keyed doc key words =>
    cases h
    exact ⟨_, _, .words words trivial, hnone _⟩
  | ended doc =>
    cases h
    exact ⟨trivial, hnone _⟩
  | inside doc key more outer block => cases h

theorem demands_of_accept? {s : State} {ts : List Token} {result : Entries}
    (h : s.accept? ts = some result) : s.Demands ts result := by
  induction ts generalizing s with
  | nil => exact demands_of_finish? h
  | cons t ts ih =>
    rw [accept?] at h
    obtain ⟨next, hstep, hnext⟩ := Option.bind_eq_some_iff.mp h
    exact demands_of_step hstep (ih hnext)

end State

/-- Exactly the entries of ordered derivations are read. -/
theorem accept?_eq_some_iff {ts : List Token} {result : Entries} :
    State.accept? (.between []) ts = some result ↔
      ∃ entries, Derives .ordered ts entries ∧ result = collect entries := by
  constructor
  · intro h
    obtain ⟨us, lines, hlead, hlines, hresult⟩ := State.demands_of_accept? h
    exact ⟨lines, ⟨us, hlead, hlines⟩, by rw [hresult, collect_eq_mergeInto]⟩
  · rintro ⟨entries, hderives, rfl⟩
    exact hderives.accept?

/-- Reading succeeds on exactly the token sequences that the grammar derives, however its alternatives are chosen. What it gives are the entries, collected in order, of the derivation in which a block of keys is a set and a word at the end of a line a value. -/
theorem read_iff_derives (lexemes : List Lexeme) :
    ((∃ doc, read (.between []) lexemes = .ok doc) ↔
      ∃ entries, Derives .free (lexemes.map Lexeme.token) entries) ∧
    ∀ doc, read (.between []) lexemes = .ok doc ↔
      ∃ entries, Derives .ordered (lexemes.map Lexeme.token) entries ∧ doc = collect entries := by
  have hordered (doc : Entries) : read (.between []) lexemes = .ok doc ↔
      ∃ entries, Derives .ordered (lexemes.map Lexeme.token) entries ∧ doc = collect entries := by
    rw [read_eq_ok_iff, accept?_eq_some_iff]
  refine ⟨⟨?_, ?_⟩, hordered⟩
  · rintro ⟨doc, hread⟩
    obtain ⟨entries, hderives, _⟩ := (hordered doc).mp hread
    exact ⟨entries, hderives.toFree⟩
  · rintro ⟨entries, hderives⟩
    obtain ⟨more, hderives⟩ := hderives.toOrdered
    exact ⟨collect more, (hordered _).mpr ⟨more, hderives, rfl⟩⟩

end ApplianceConfig.Grammar
