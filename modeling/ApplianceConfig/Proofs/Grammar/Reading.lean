import ApplianceConfig.Grammar.Reader
import ApplianceConfig.Proofs.Grammar.Productions

/-!
# Derivations are read

The reader goes through the tokens of an ordered derivation part by part. Each part takes it from the state in front of the part to the state behind it, whatever tokens follow. A fresh block is the one place where it lags behind: its words are kept until a token shows that the block is no set, and reading them late comes to the same as reading each of them as it came.
-/

namespace ApplianceConfig.Grammar

namespace State

/-- The entries that tokens lead to from a state, if they can be read to their end. -/
def accept? (s : State) : List Token → Option Entries
  | [] => s.finish?
  | t :: ts => (s.step t).bind (accept? · ts)

theorem accept?_of_step {s next : State} {t : Token} (h : s.step t = some next) (ts : List Token) :
    s.accept? (t :: ts) = next.accept? ts := by
  rw [accept?, h, Option.bind_some]

end State

theorem read_eq_ok_iff {s : State} {lexemes : List Lexeme} {entries : Entries} :
    read s lexemes = .ok entries ↔ s.accept? (lexemes.map Lexeme.token) = some entries := by
  induction lexemes generalizing s with
  | nil =>
    rw [read, List.map_nil, State.accept?]
    cases s.finish? <;> simp
  | cons l rest ih =>
    rw [read, List.map_cons, State.accept?]
    cases hstep : s.step l.token with
    | none => simp
    | some next => exact ih

/-! ### Words of a fresh block -/

namespace Block

theorem pairUp_append (words : List Word) (w : Word) :
    pairUp (words ++ [w]) =
      match pairUp words with
      | (entries, none) => (entries, some w.text)
      | (entries, some key) => (entries ++ [(key, w.value)], none) := by
  match words with
  | [] => rfl
  | [k] => rfl
  | k :: v :: rest =>
    rw [List.cons_append, List.cons_append, pairUp, pairUp, pairUp_append rest w]
    rcases pairUp rest with ⟨entries, _ | key⟩ <;> rfl

/-- Settling a block and then reading a word is settling the block with that word. -/
theorem settle_step_word (words : List Word) (w : Word) :
    (settle (.fresh words)).stepEntries (.word w) =
      some (.stay (settle (.fresh (words ++ [w])))) := by
  rw [settle, settle, pairUp_append]
  rcases pairUp words with ⟨entries, _ | key⟩
  · rfl
  · simp only [stepEntries, Entries.mergeEntry, mergeInto_append]

theorem settle_settle (block : Block) : block.settle.settle = block.settle := by
  cases block with
  | fresh words =>
    rw [settle]
    rcases pairUp words with ⟨entries, _ | key⟩ <;> rfl
  | between entries => rfl
  | keyed entries key => rfl

/-- Whether a block is a set no longer matters when it is settled. -/
theorem settle_ne_fresh (block : Block) (words : List Word) : block.settle ≠ .fresh words := by
  cases block with
  | fresh words =>
    rw [settle]
    rcases pairUp words with ⟨entries, _ | key⟩ <;> exact nofun
  | between entries | keyed entries key => exact nofun

theorem step_of_settled {block : Block} (hsettled : block.settle = block) (t : Token) :
    block.step t = block.stepEntries t := by
  cases block with
  | fresh words => exact absurd hsettled (settle_ne_fresh _ words)
  | between entries => rfl
  | keyed entries key => rfl

end Block

section Inside

variable (doc : Entries) (key : String) (more : List String) (outer : List Outer)

/-- A fresh block that does not turn out to be a set is read as if its words had been entries from the start. -/
theorem accept?_fresh (words : List Word) {ts : List Token}
    (h : ¬ KeysOnly (words.map .word ++ ts)) :
    State.accept? (.inside doc key more outer (.fresh words)) ts =
      State.accept? (.inside doc key more outer (Block.settle (.fresh words))) ts := by
  induction ts generalizing words with
  | nil => rfl
  | cons t ts ih =>
    have hsettled := Block.step_of_settled (Block.settle_settle (.fresh words))
    match t with
    | .word w =>
      have hlate : Block.step (Block.settle (.fresh words)) (.word w) =
          some (.stay (Block.settle (.fresh (words ++ [w])))) := by
        rw [hsettled, Block.settle_step_word]
      have hnext := ih (words ++ [w]) (by simpa using h)
      rw [State.accept?, State.accept?, State.step, State.step, hlate]
      simpa only [Block.step, Option.map_some, Option.bind_some] using hnext
    | .closeBrace =>
      cases words with
      | nil => rfl
      | cons w words => exact absurd ⟨w :: words, ts, by simp, rfl⟩ h
    | .openBrace | .newline | .null =>
      rw [State.accept?, State.accept?, State.step, State.step, hsettled]
      rfl

theorem accept?_fresh_set (keys words : List Word) (hne : words ++ keys ≠ [])
    (rest : List Token) :
    State.accept? (.inside doc key more outer (.fresh words))
        (keys.map .word ++ .closeBrace :: rest) =
      (State.close doc key more (.set ((words ++ keys).map Word.text)) outer).accept? rest := by
  induction keys generalizing words with
  | nil =>
    rw [List.append_nil] at hne ⊢
    obtain ⟨w, words, rfl⟩ := List.exists_cons_of_ne_nil hne
    rfl
  | cons w keys ih =>
    have hwords : words ++ w :: keys = words ++ [w] ++ keys := List.append_cons words w keys
    rw [hwords] at hne ⊢
    exact ih _ hne

theorem accept?_newlines {ts us : List Token} (h : Newlines ts us) (entries : Entries) :
    State.accept? (.inside doc key more outer (.between entries)) ts =
      State.accept? (.inside doc key more outer (.between entries)) us := by
  induction h with
  | done => rfl
  | skip _ ih => exact ih

end Inside

/-! ### Parts of a derivation -/

mutual

/-- A block is read to its end, and its value goes to where the block stands. -/
theorem Block.Derives.accept? {ts rest : List Token} {v : Value} (doc : Entries) (key : String)
    (more : List String) (outer : List Outer) (h : Block.Derives .ordered ts v rest) :
    ∃ inner, ts = .openBrace :: inner ∧
      State.accept? (.inside doc key more outer (.fresh [])) inner =
        (State.close doc key more v outer).accept? rest := by
  match h with
  | @Block.Derives.set _ keys rest hkeys =>
    exact ⟨_, rfl, accept?_fresh_set doc key more outer keys [] hkeys rest⟩
  | @Block.Derives.group _ inner us entries _ hordered hlead hentries =>
    refine ⟨inner, rfl, ?_⟩
    have hfresh := accept?_fresh doc key more outer [] (hordered rfl)
    have hsettle : Block.settle (.fresh []) = .between [] := rfl
    rw [hfresh, hsettle, accept?_newlines doc key more outer hlead,
      hentries.accept? doc key more outer [], ← collect_eq_mergeInto]
    rfl

theorem EntryTail.Derives.accept? {ts rest : List Token} {v : Value} (doc : Entries) (key : String)
    (more : List String) (outer : List Outer) (entries : Entries) (name : String)
    (h : EntryTail.Derives .ordered ts v rest) :
    State.accept? (.inside doc key more outer (.keyed entries name)) ts =
      State.accept? (.inside doc key more outer (.between (entries.mergeEntry name v))) rest := by
  match h with
  | .block hblock =>
    obtain ⟨inner, rfl, hinner⟩ := hblock.accept? doc key more (⟨entries, name⟩ :: outer)
    exact hinner
  | @EntryTail.Derives.scalar _ t _ rest hscalar =>
    cases t with
    | null | word w =>
      cases hscalar
      rfl
    | openBrace | closeBrace | newline => cases hscalar
  | @EntryTail.Derives.toggle _ rest hend =>
    match rest, hend with
    | .newline :: _, _ | .closeBrace :: _, _ => rfl

theorem Members.Derives.accept? {ts rest : List Token} {members : Entries} (doc : Entries)
    (key : String) (more : List String) (outer : List Outer) (entries : Entries)
    (h : Members.Derives .ordered ts members rest) :
    State.accept? (.inside doc key more outer (.between entries)) ts =
      State.accept? (.inside doc key more outer (.between (mergeInto members entries))) rest := by
  match h with
  | .done => rfl
  | @Members.Derives.entry _ w ts v us _ members _ htail hlines hmore =>
    have hword : State.step (.inside doc key more outer (.between entries)) (.word w) =
        some (.inside doc key more outer (.keyed entries w.text)) := rfl
    rw [State.accept?_of_step hword, htail.accept? doc key more outer entries w.text,
      accept?_newlines doc key more outer hlines, hmore.accept? doc key more outer,
      Entries.mergeEntry, ← mergeInto_append]
    rfl

end

/-! ### Lines -/

theorem chain_append (keys : List String) (key : String) (v : Value) :
    chain (keys ++ [key]) v = chain keys (.map .chained [(key, v)]) := by
  rw [chain, List.foldr_append]
  rfl

theorem lineValue_append (words : List Word) (w : Word) :
    lineValue (words ++ [w]) = chain (words.map Word.text) w.value := by
  match words with
  | [] => rfl
  | [first] => rfl
  | first :: second :: rest =>
    rw [List.cons_append, List.cons_append, lineValue, ← List.cons_append,
      lineValue_append (second :: rest) w]
    · rfl
    · simp

/-- Behind a line's last token it makes no difference whether another token of the line was expected. -/
theorem accept?_ended {rest : List Token} (hend : LineEnds rest) (doc : Entries) :
    State.accept? (.ended doc) rest = State.accept? (.between doc) rest := by
  match rest, hend with
  | [], _ | .newline :: _, _ => rfl

theorem accept?_keyed {rest : List Token} (hend : LineEnds rest) (doc : Entries) (key : String)
    (words : List Word) :
    State.accept? (.keyed doc key words) rest =
      State.accept? (.between (doc.mergeEntry key (lineValue words))) rest := by
  match rest, hend with
  | [], _ | .newline :: _, _ => rfl

/-- A line is read to its end behind any words of it that have been read already. A line with such words goes on. -/
theorem LineTail.Derives.accept? {ts rest : List Token} {v : Value}
    (h : LineTail.Derives .ordered ts v rest) (doc : Entries) (key : String) {words : List Word}
    (hwords : LineEnds ts → words = []) :
    State.accept? (.keyed doc key words) ts =
      State.accept? (.between (doc.mergeEntry key (Grammar.chain (words.map Word.text) v))) rest := by
  induction h generalizing words with
  | block hblock =>
    obtain ⟨inner, rfl, hinner⟩ := hblock.accept? doc key (words.map Word.text) []
    exact hinner
  | @scalar t v rest hscalar hend =>
    cases t with
    | null =>
      cases hscalar
      exact accept?_ended hend _
    | word w =>
      cases hscalar
      have hstep : State.step (.keyed doc key words) (.word w) =
          some (.keyed doc key (words ++ [w])) := rfl
      rw [State.accept?_of_step hstep, accept?_keyed hend, lineValue_append]
    | openBrace | closeBrace | newline => cases hscalar
  | @chain w ts v rest hordered _ ih =>
    have hstep : State.step (.keyed doc key words) (.word w) =
        some (.keyed doc key (words ++ [w])) := rfl
    rw [State.accept?_of_step hstep, ih fun hend => absurd hend (hordered rfl), List.map_append,
      List.map_singleton, chain_append]
  | toggle hend =>
    rw [hwords hend, accept?_keyed hend]
    rfl

theorem accept?_between_newlines {ts us : List Token} (h : Newlines ts us) (doc : Entries) :
    State.accept? (.between doc) ts = State.accept? (.between doc) us := by
  induction h with
  | done => rfl
  | skip _ ih => exact ih

theorem Lines.Derives.accept? {ts : List Token} {entries : Entries}
    (h : Lines.Derives .ordered ts entries) (doc : Entries) :
    State.accept? (.between doc) ts = some (mergeInto entries doc) := by
  induction h generalizing doc with
  | done => rfl
  | @line w ts v us vs entries htail hlines _ ih =>
    have hstep : State.step (.between doc) (.word w) = some (.keyed doc w.text []) := rfl
    rw [State.accept?_of_step hstep, htail.accept? doc w.text fun _ => rfl,
      accept?_between_newlines hlines, ih, Entries.mergeEntry, ← mergeInto_append]
    rfl

/-- The tokens of an ordered derivation are read behind any lines, and its entries are merged into theirs. -/
theorem Derives.accept?_between {ts : List Token} {entries : Entries} (h : Derives .ordered ts entries)
    (doc : Entries) : State.accept? (.between doc) ts = some (mergeInto entries doc) := by
  obtain ⟨us, hlead, hlines⟩ := h
  rw [accept?_between_newlines hlead, hlines.accept? doc]

/-- The tokens of an ordered derivation are read, and give its entries. -/
theorem Derives.accept? {ts : List Token} {entries : Entries} (h : Derives .ordered ts entries) :
    State.accept? (.between []) ts = some (collect entries) := by
  rw [h.accept?_between, collect_eq_mergeInto]

end ApplianceConfig.Grammar
