import ApplianceConfig.Document.Merge
import ApplianceConfig.Grammar.Token

/-!
# The grammar of documents

The productions of the grammar, each as a relation between the tokens in front, what they stand for, and the tokens behind. Alternatives stand side by side, so some token sequences have several derivations: a block of keys is a set and may also be a group, and the last word of a line is a value and may also be a key that stands alone. The ordered derivations are those in which such a block is a set and such a word a value.

Every sequence with a derivation has an ordered one. Which entries the ordered one gives is what the reader has to agree with.
-/

namespace ApplianceConfig.Grammar

/-- Which derivations count: all of them, or the ordered ones only. -/
inductive Choice
  | free
  | ordered

/-- The value that a single token stands for. -/
def Token.scalar? : Token → Option Value
  | .null => some .absent
  | .word w => some w.value
  | _ => none

/-- Holds where a line of the document ends. -/
def LineEnds : List Token → Prop
  | [] | .newline :: _ => True
  | _ => False

/-- Holds where an entry of a group ends. -/
def EntryEnds : List Token → Prop
  | .newline :: _ | .closeBrace :: _ => True
  | _ => False

/-- Holds of what is behind an opening brace when only keys stand up to the closing one. -/
def KeysOnly (ts : List Token) : Prop :=
  ∃ (keys : List Word) (rest : List Token), keys ≠ [] ∧ ts = keys.map .word ++ .closeBrace :: rest

/-- Any number of line feeds. -/
inductive Newlines : List Token → List Token → Prop
  | done {ts} : Newlines ts ts
  | skip {ts us} : Newlines ts us → Newlines (.newline :: ts) us

/-- Entries written into an empty mapping one after another. -/
def collect (entries : Entries) : Entries :=
  entries.foldl (fun present e => present.mergeEntry e.1 e.2) []

mutual

/-- A brace block: a set of keys, or a group of entries. -/
inductive Block.Derives (c : Choice) : List Token → Value → List Token → Prop
  | set {keys rest} (hkeys : keys ≠ []) :
      Block.Derives c (.openBrace :: (keys.map .word ++ .closeBrace :: rest))
        (.set (keys.map Word.text)) rest
  | group {ts us entries rest} (hordered : c = .ordered → ¬ KeysOnly ts) (hlead : Newlines ts us)
      (hentries : Members.Derives c us entries (.closeBrace :: rest)) :
      Block.Derives c (.openBrace :: ts) (.block (collect entries)) rest

/-- What stands behind a key in a group. -/
inductive EntryTail.Derives (c : Choice) : List Token → Value → List Token → Prop
  | block {ts v rest} (hblock : Block.Derives c ts v rest) : EntryTail.Derives c ts v rest
  | scalar {t v rest} (hscalar : t.scalar? = some v) : EntryTail.Derives c (t :: rest) v rest
  | toggle {rest} (hend : EntryEnds rest) : EntryTail.Derives c rest .toggle rest

/-- The entries of a group. -/
inductive Members.Derives (c : Choice) : List Token → Entries → List Token → Prop
  | done {ts} : Members.Derives c ts [] ts
  | entry {w ts v us vs entries rest} (htail : EntryTail.Derives c ts v us)
      (hlines : Newlines us vs) (hmore : Members.Derives c vs entries rest) :
      Members.Derives c (.word w :: ts) ((w.text, v) :: entries) rest

end

/-- What stands behind a key in a line of the document. -/
inductive LineTail.Derives (c : Choice) : List Token → Value → List Token → Prop
  | block {ts v rest} (hblock : Block.Derives c ts v rest) : LineTail.Derives c ts v rest
  | scalar {t v rest} (hscalar : t.scalar? = some v) (hend : LineEnds rest) :
      LineTail.Derives c (t :: rest) v rest
  | chain {w ts v rest} (hordered : c = .ordered → ¬ LineEnds ts)
      (htail : LineTail.Derives c ts v rest) :
      LineTail.Derives c (.word w :: ts) (.map .chained [(w.text, v)]) rest
  | toggle {rest} (hend : LineEnds rest) : LineTail.Derives c rest .toggle rest

/-- The lines of a document up to the end of the tokens. -/
inductive Lines.Derives (c : Choice) : List Token → Entries → Prop
  | done : Lines.Derives c [] []
  | line {w ts v us vs entries} (htail : LineTail.Derives c ts v us) (hlines : Newlines us vs)
      (hmore : Lines.Derives c vs entries) :
      Lines.Derives c (.word w :: ts) ((w.text, v) :: entries)

/-- The tokens of a whole document, with the entries of its lines in order. -/
def Derives (c : Choice) (ts : List Token) (entries : Entries) : Prop :=
  ∃ us, Newlines ts us ∧ Lines.Derives c us entries

/-! ### Collecting entries -/

theorem mergeInto_append (first second present : Entries) :
    mergeInto (first ++ second) present = mergeInto second (mergeInto first present) := by
  induction first generalizing present with
  | nil => rfl
  | cons entry rest ih =>
    obtain ⟨key, value⟩ := entry
    rw [List.cons_append, mergeInto, mergeInto, ih]

theorem foldl_mergeEntry (entries present : Entries) :
    entries.foldl (fun present e => present.mergeEntry e.1 e.2) present =
      mergeInto entries present := by
  induction entries generalizing present with
  | nil => rfl
  | cons entry rest ih =>
    rw [List.foldl_cons, ih, Entries.mergeEntry, ← mergeInto_append]
    rfl

theorem collect_eq_mergeInto (entries : Entries) : collect entries = mergeInto entries [] :=
  foldl_mergeEntry entries []

/-! ### Ordered derivations -/

theorem Newlines.of_not_newline {ts us : List Token} (h : Newlines ts us)
    (hhead : ∀ rest, ts ≠ .newline :: rest) : us = ts := by
  cases h with
  | done => rfl
  | skip h => exact absurd rfl (hhead _)

mutual

/-- An ordered derivation is a derivation. -/
theorem Block.Derives.toFree {c : Choice} {ts rest : List Token} {v : Value} :
    Block.Derives c ts v rest → Block.Derives .free ts v rest
  | .set hkeys => .set hkeys
  | .group _ hlead hentries => .group nofun hlead hentries.toFree

theorem EntryTail.Derives.toFree {c : Choice} {ts rest : List Token} {v : Value} :
    EntryTail.Derives c ts v rest → EntryTail.Derives .free ts v rest
  | .block hblock => .block hblock.toFree
  | .scalar hscalar => .scalar hscalar
  | .toggle hend => .toggle hend

theorem Members.Derives.toFree {c : Choice} {ts rest : List Token} {entries : Entries} :
    Members.Derives c ts entries rest → Members.Derives .free ts entries rest
  | .done => .done
  | .entry htail hlines hmore => .entry htail.toFree hlines hmore.toFree

end

theorem LineTail.Derives.toFree {c : Choice} {ts rest : List Token} {v : Value}
    (h : LineTail.Derives c ts v rest) : LineTail.Derives .free ts v rest := by
  induction h with
  | block hblock => exact .block hblock.toFree
  | scalar hscalar hend => exact .scalar hscalar hend
  | chain _ _ ih => exact .chain nofun ih
  | toggle hend => exact .toggle hend

theorem Derives.toFree {c : Choice} {ts : List Token} {entries : Entries}
    (h : Derives c ts entries) : Derives .free ts entries := by
  obtain ⟨us, hlead, hlines⟩ := h
  refine ⟨us, hlead, ?_⟩
  clear hlead
  induction hlines with
  | done => exact .done
  | line htail hlines _ ih => exact .line htail.toFree hlines ih

/-! ### Ordering a derivation

A group of keys only is a set as well, and a key that stands alone behind another is the value of that one. Replacing the one by the other throughout a derivation leaves its tokens as they are.
-/

theorem newlines_of_keys {keys : List Word} {ts us : List Token}
    (h : Newlines (keys.map .word ++ .closeBrace :: ts) us) :
    us = keys.map .word ++ .closeBrace :: ts := by
  apply h.of_not_newline
  intro rest heq
  cases keys <;> simp at heq

private theorem entryTail_of_keys {c : Choice} {keys : List Word} {ts us : List Token} {v : Value}
    (h : EntryTail.Derives c (keys.map .word ++ .closeBrace :: ts) v us) :
    ∃ fewer : List Word, us = fewer.map .word ++ .closeBrace :: ts := by
  cases keys with
  | nil =>
    cases h with
    | block hblock => cases hblock
    | scalar hscalar => simp [Token.scalar?] at hscalar
    | toggle hend => exact ⟨[], rfl⟩
  | cons key keys =>
    cases h with
    | block hblock => cases hblock
    | scalar hscalar => exact ⟨keys, rfl⟩
    | toggle hend => exact ⟨key :: keys, rfl⟩

/-- Entries made of keys up to a closing brace end with that brace. -/
theorem members_of_keys {c : Choice} {ts rest us behind : List Token} {entries : Entries}
    (h : Members.Derives c us entries behind) (hbehind : behind = .closeBrace :: rest)
    {keys : List Word} (hkeys : us = keys.map .word ++ .closeBrace :: ts) : ts = rest := by
  match h with
  | .done =>
    rw [hbehind] at hkeys
    cases keys <;> simp_all
  | .entry htail hlines hmore =>
    cases keys with
    | nil => simp at hkeys
    | cons key keys =>
      simp only [List.map_cons, List.cons_append, List.cons.injEq] at hkeys
      rw [hkeys.2] at htail
      obtain ⟨fewer, hfewer⟩ := entryTail_of_keys htail
      rw [hfewer] at hlines
      exact members_of_keys hmore hbehind (newlines_of_keys hlines)

mutual

theorem Block.Derives.toOrdered {c : Choice} {ts rest : List Token} {v : Value} :
    Block.Derives c ts v rest → ∃ w, Block.Derives .ordered ts w rest
  | .set hkeys => ⟨_, .set hkeys⟩
  | @Block.Derives.group _ inner _ _ _ _ hlead hentries => by
    by_cases hkeys : KeysOnly inner
    · obtain ⟨keys, behind, hne, rfl⟩ := hkeys
      have hrest : behind = rest := members_of_keys hentries rfl (newlines_of_keys hlead)
      subst hrest
      exact ⟨_, .set hne⟩
    · obtain ⟨entries, hentries⟩ := hentries.toOrdered
      exact ⟨_, .group (fun _ => hkeys) hlead hentries⟩

theorem EntryTail.Derives.toOrdered {c : Choice} {ts rest : List Token} {v : Value} :
    EntryTail.Derives c ts v rest → ∃ w, EntryTail.Derives .ordered ts w rest
  | .block hblock => by
    obtain ⟨w, hblock⟩ := hblock.toOrdered
    exact ⟨w, .block hblock⟩
  | .scalar hscalar => ⟨_, .scalar hscalar⟩
  | .toggle hend => ⟨_, .toggle hend⟩

theorem Members.Derives.toOrdered {c : Choice} {ts rest : List Token} {entries : Entries} :
    Members.Derives c ts entries rest → ∃ more, Members.Derives .ordered ts more rest
  | .done => ⟨_, .done⟩
  | .entry htail hlines hmore => by
    obtain ⟨v, htail⟩ := htail.toOrdered
    obtain ⟨more, hmore⟩ := hmore.toOrdered
    exact ⟨_, .entry htail hlines hmore⟩

end

/-- No line ends in front of a scalar. -/
theorem not_lineEnds_of_scalar? {t : Token} {v : Value} (h : t.scalar? = some v) (rest : List Token) :
    ¬ LineEnds (t :: rest) := by
  cases t with
  | newline => cases h
  | openBrace | closeBrace | null | word w => exact id

theorem Block.Derives.not_lineEnds {c : Choice} {ts rest : List Token} {v : Value}
    (h : Block.Derives c ts v rest) : ¬ LineEnds ts := by
  cases h <;> exact id

/-- What ends a line behind a key can only be the key standing alone. -/
private theorem LineTail.Derives.rest_of_lineEnds {c : Choice} {ts rest : List Token} {v : Value}
    (h : LineTail.Derives c ts v rest) (hend : LineEnds ts) : rest = ts := by
  cases h with
  | block hblock => exact absurd hend hblock.not_lineEnds
  | scalar hscalar _ => exact absurd hend (not_lineEnds_of_scalar? hscalar _)
  | chain _ _ => exact hend.elim
  | toggle _ => rfl

theorem LineTail.Derives.toOrdered {c : Choice} {ts rest : List Token} {v : Value}
    (h : LineTail.Derives c ts v rest) : ∃ w, LineTail.Derives .ordered ts w rest := by
  induction h with
  | block hblock =>
    obtain ⟨w, hblock⟩ := hblock.toOrdered
    exact ⟨w, .block hblock⟩
  | scalar hscalar hend => exact ⟨_, .scalar hscalar hend⟩
  | @chain w ts v rest _ htail ih =>
    by_cases hend : LineEnds ts
    · -- the key ends its line, so it is the value of the key before it
      have hrest := htail.rest_of_lineEnds hend
      subst hrest
      exact ⟨w.value, .scalar rfl hend⟩
    · obtain ⟨v', htail⟩ := ih
      exact ⟨_, .chain (fun _ => hend) htail⟩
  | toggle hend => exact ⟨_, .toggle hend⟩

/-- Every token sequence with a derivation has an ordered one. -/
theorem Derives.toOrdered {c : Choice} {ts : List Token} {entries : Entries}
    (h : Derives c ts entries) : ∃ more, Derives .ordered ts more := by
  obtain ⟨us, hlead, hlines⟩ := h
  suffices hmore : ∃ more, Lines.Derives .ordered us more by
    obtain ⟨more, hmore⟩ := hmore
    exact ⟨more, us, hlead, hmore⟩
  clear hlead
  induction hlines with
  | done => exact ⟨_, .done⟩
  | line htail hlines _ ih =>
    obtain ⟨v, htail⟩ := htail.toOrdered
    obtain ⟨more, hmore⟩ := ih
    exact ⟨_, .line htail hlines hmore⟩

end ApplianceConfig.Grammar
