import ApplianceConfig.Proofs.Grammar.Recognition

/-!
# Values behind keys

What is behind a closed block does not change it. So the tokens of a scalar or of a block stand for one value wherever they are put: behind a key of a group, behind a key of a line, or behind a path of keys. A group around a single entry stands for itself again, so such values can be nested.
-/

namespace ApplianceConfig.Grammar

/-! ### More tokens behind a derivation -/

theorem Newlines.append {ts us : List Token} (h : Newlines ts us) (more : List Token) :
    Newlines (ts ++ more) (us ++ more) := by
  induction h with
  | done => exact .done
  | skip _ ih => exact .skip ih

theorem EntryEnds.append {ts : List Token} (h : EntryEnds ts) (more : List Token) : EntryEnds (ts ++ more) := by
  cases ts with
  | nil => exact h.elim
  | cons t ts => cases t <;> exact h

/-- A group that is closed is made a set by nothing that is behind it. -/
theorem KeysOnly.of_append {c : Choice} {ts us rest more : List Token} {entries : Entries}
    (h : KeysOnly (ts ++ more)) (hlead : Newlines (ts ++ more) us)
    (hentries : Members.Derives c us entries (.closeBrace :: (rest ++ more))) : KeysOnly ts := by
  obtain ⟨keys, behind, hne, hkeys⟩ := h
  rw [hkeys] at hlead
  -- the group consists of these keys, so it ends where they do
  obtain rfl : behind = rest ++ more := members_of_keys hentries rfl (newlines_of_keys hlead)
  rw [← List.cons_append, ← List.append_assoc] at hkeys
  exact ⟨keys, rest, hne, List.append_cancel_right hkeys⟩

mutual

/-- A block is derived whatever is behind it. -/
theorem Block.Derives.append {c : Choice} {ts rest : List Token} {v : Value} (h : Block.Derives c ts v rest)
    (more : List Token) : Block.Derives c (ts ++ more) v (rest ++ more) := by
  match h with
  | .set hkeys =>
    rw [List.cons_append, List.append_assoc]
    exact .set hkeys
  | .group hordered hlead hentries =>
    have hmore := hentries.append more
    exact .group (fun hc hkeys => hordered hc (hkeys.of_append (hlead.append more) hmore)) (hlead.append more) hmore

theorem EntryTail.Derives.append {c : Choice} {ts rest : List Token} {v : Value}
    (h : EntryTail.Derives c ts v rest) (more : List Token) :
    EntryTail.Derives c (ts ++ more) v (rest ++ more) := by
  match h with
  | .block hblock => exact .block (hblock.append more)
  | .scalar hscalar => exact .scalar hscalar
  | .toggle hend => exact .toggle (hend.append more)

theorem Members.Derives.append {c : Choice} {ts rest : List Token} {entries : Entries}
    (h : Members.Derives c ts entries rest) (more : List Token) :
    Members.Derives c (ts ++ more) entries (rest ++ more) := by
  match h with
  | .done => exact .done
  | .entry htail hlines hentries => exact .entry (htail.append more) (hlines.append more) (hentries.append more)

end

/-! ### Scalars and blocks -/

theorem collect_singleton (key : String) (v : Value) : collect [(key, v)] = [(key, v)] := by
  rw [collect_eq_mergeInto, mergeInto, mergeInto]
  rfl

theorem not_keysOnly_newline (ts : List Token) : ¬ KeysOnly (.newline :: ts) := by
  rintro ⟨keys, rest, hne, hts⟩
  obtain ⟨key, keys, rfl⟩ := List.exists_cons_of_ne_nil hne
  cases hts

/-- Holds of the tokens of a scalar, a set or a group. -/
def IsTail (ts : List Token) : Prop :=
  (∃ t v, ts = [t] ∧ t.scalar? = some v) ∨ ∃ v, Block.Derives .free ts v []

/-- Holds of the tokens of a scalar, and of those of a block whatever is behind them, together with their value. -/
def StandsFor (ts : List Token) (v : Value) : Prop :=
  (∃ t, ts = [t] ∧ t.scalar? = some v) ∨ ∀ rest, Block.Derives .ordered (ts ++ rest) v rest

theorem IsTail.exists_standsFor {ts : List Token} (h : IsTail ts) : ∃ v, StandsFor ts v := by
  obtain ⟨t, v, hts, hscalar⟩ | ⟨v, hblock⟩ := h
  · exact ⟨v, .inl ⟨t, hts, hscalar⟩⟩
  · obtain ⟨w, hordered⟩ := hblock.toOrdered
    exact ⟨w, .inr fun rest => hordered.append rest⟩

namespace StandsFor

variable {ts : List Token} {v : Value}

theorem entryTail (h : StandsFor ts v) (rest : List Token) : EntryTail.Derives .ordered (ts ++ rest) v rest := by
  obtain ⟨t, rfl, hscalar⟩ | hblock := h
  · exact .scalar hscalar
  · exact .block (hblock rest)

/-- Behind the keys of a line a value is chained to them, whatever the keys look like. -/
theorem lineTail (h : StandsFor ts v) (words : List Word) {rest : List Token} (hend : LineEnds rest) :
    LineTail.Derives .ordered (words.map .word ++ (ts ++ rest)) (chain (words.map Word.text) v) rest := by
  obtain ⟨t, rfl, hscalar⟩ | hblock := h
  · exact .behind (.scalar hscalar hend) (not_lineEnds_of_scalar? hscalar rest)
  · exact .behind (.block (hblock rest)) (hblock rest).not_lineEnds

/-- A group around one entry, on lines of their own. -/
theorem group (h : StandsFor ts v) (w : Word) :
    StandsFor (.openBrace :: .newline :: .word w :: (ts ++ [.newline, .closeBrace])) (.block [(w.text, v)]) := by
  refine .inr fun rest => ?_
  have hmembers : Members.Derives .ordered (.word w :: (ts ++ .newline :: .closeBrace :: rest)) [(w.text, v)]
      (.closeBrace :: rest) := .entry (h.entryTail _) (.skip .done) .done
  have hgroup := Block.Derives.group (fun _ => not_keysOnly_newline _) (.skip .done) hmembers
  simpa [collect_singleton] using hgroup

end StandsFor

end ApplianceConfig.Grammar
