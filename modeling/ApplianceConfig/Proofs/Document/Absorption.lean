import ApplianceConfig.Proofs.Document.Merging

/-!
# What is merged is there

A merge keeps the keys of the first document in their places and puts the new ones of the second behind them. Under a key of both, two chains are merged, and otherwise the later value stays. So a document that has been merged into another one is absorbed: to merge it again changes nothing, and neither does merging a document into itself.

Both rest on the keys being distinct. A second entry of a key would be written over the first.
-/

namespace ApplianceConfig

/-! ### Keys and values -/

theorem keys_mergeInto {incoming : Entries} (hnodup : (Assoc.keys incoming).Nodup) (present : Entries) :
    Assoc.keys (mergeInto incoming present) =
      Assoc.keys present ++ (Assoc.keys incoming).filter (· ∉ Assoc.keys present) := by
  induction incoming generalizing present with
  | nil => simp [mergeInto, Assoc.keys]
  | cons e rest ih =>
    obtain ⟨key, value⟩ := e
    obtain ⟨hkey, hrest⟩ := List.nodup_cons.mp hnodup
    have hkeys : Assoc.keys ((key, value) :: rest) = key :: Assoc.keys rest := rfl
    rw [mergeInto_cons, ih hrest, Assoc.keys_alter, hkeys]
    by_cases hmem : key ∈ Assoc.keys present
    · rw [if_pos hmem, List.filter_cons_of_neg (by simpa using hmem)]
    · rw [if_neg hmem, List.filter_cons_of_pos (by simpa using hmem), List.append_assoc]
      -- the keys behind this one are other keys, so it does not matter that it is there now
      have hsame : (Assoc.keys rest).filter (· ∉ Assoc.keys present ++ [key]) =
          (Assoc.keys rest).filter (· ∉ Assoc.keys present) := by
        refine List.filter_congr fun other hother => ?_
        have hne : other ≠ key := fun heq => hkey (heq ▸ hother)
        simp [hne]
      rw [hsame]
      rfl

theorem get?_mergeInto {incoming : Entries} (hnodup : (Assoc.keys incoming).Nodup) (present : Entries)
    (key : String) :
    Assoc.get? (mergeInto incoming present) key =
      match Assoc.get? incoming key with
      | none => Assoc.get? present key
      | some value => some (value.onto (Assoc.get? present key)) := by
  induction incoming generalizing present with
  | nil => rw [mergeInto, Assoc.get?_nil]
  | cons e rest ih =>
    obtain ⟨k, value⟩ := e
    obtain ⟨hk, hrest⟩ := List.nodup_cons.mp hnodup
    rw [mergeInto_cons, ih hrest, Assoc.get?_alter, Assoc.get?]
    by_cases heq : k = key
    · subst heq
      have hnone : Assoc.get? rest k = none := by
        simpa [Assoc.contains] using Assoc.contains_of_not_mem_keys hk
      rw [if_pos rfl, if_pos rfl, hnone]
    · rw [if_neg heq, if_neg heq]

/-- Only two chains are merged. -/
theorem Value.over_of_not_chains {value later : Value}
    (h : ¬ ∃ entries more, value = .map .chained entries ∧ later = .map .chained more) : later.over value = later := by
  unfold Value.over
  split
  · exact absurd ⟨_, _, rfl, rfl⟩ h
  · rfl

/-! ### Writing a value over itself -/

theorem Assoc.alter_of_get? {α : Type} {entries : Assoc α} {key : String} {v : α}
    (h : get? entries key = some v) {f : Option α → α} (hf : f (some v) = v) : alter entries key f = entries := by
  induction entries with
  | nil => cases h
  | cons e rest ih =>
    obtain ⟨k, w⟩ := e
    rw [get?] at h
    rw [alter]
    by_cases hk : k = key
    · rw [if_pos hk, Option.some.injEq] at h
      rw [if_pos hk, h, hf]
    · rw [if_neg hk] at h
      rw [if_neg hk, ih h]

/-- Holds of values that stay as they are when they are written over themselves, and then put no chain in the place of a value that is none. -/
structure Value.Absorbs (value : Value) : Prop where
  over_self : value.over value = value
  joins_self : value.joins value = true

section Absorbed

variable {incoming present : Entries}
  (habsorbs : ∀ e ∈ incoming, Assoc.get? present e.1 = some e.2 ∧ e.2.Absorbs)

include habsorbs

theorem mergeInto_of_present : mergeInto incoming present = present := by
  induction incoming with
  | nil => rw [mergeInto]
  | cons e rest ih =>
    obtain ⟨key, value⟩ := e
    obtain ⟨⟨hpresent, habsorb⟩, hrest⟩ := List.forall_mem_cons.mp habsorbs
    rw [mergeInto_cons, Assoc.alter_of_get? hpresent habsorb.over_self, ih hrest]

theorem joinsEntries_of_present : joinsEntries incoming present = true := by
  induction incoming with
  | nil => rfl
  | cons e rest ih =>
    obtain ⟨key, value⟩ := e
    obtain ⟨⟨hpresent, habsorb⟩, hrest⟩ := List.forall_mem_cons.mp habsorbs
    rw [joinsEntries, Entries.mergeEntry_eq, Assoc.alter_of_get? hpresent habsorb.over_self, ih hrest, hpresent,
      Option.all_some, habsorb.joins_self]
    rfl

end Absorbed

mutual

theorem Value.absorbs {value : Value} (h : value.distinct = true) : value.Absorbs := by
  match value with
  | .map .chained entries =>
    have habsorbs := absorbs_of_distinct h
    refine ⟨?_, ?_⟩
    · rw [Value.over, mergeInto_of_present habsorbs]
    · rw [Value.joins]
      exact joinsEntries_of_present habsorbs
  | .map .braced _ | .map .bare _ => exact ⟨rfl, rfl⟩
  | .toggle | .absent | .bool _ | .int _ | .text _ | .raw _ | .set _ => exact ⟨rfl, rfl⟩

/-- Entries with distinct keys are found in themselves, and their values stay. -/
theorem absorbs_of_distinct {entries : Entries} (h : distinctEntries entries = true) :
    ∀ e ∈ entries, Assoc.get? entries e.1 = some e.2 ∧ e.2.Absorbs := by
  match entries with
  | [] => exact List.forall_mem_nil _
  | (key, value) :: rest =>
    obtain ⟨hnodup, -⟩ := distinctEntries_iff.mp h
    rw [distinctEntries, Bool.and_eq_true, Bool.and_eq_true] at h
    have hrest := absorbs_of_distinct h.2
    intro e he
    refine ⟨Assoc.get?_of_mem hnodup he, ?_⟩
    rcases List.mem_cons.mp he with rfl | hmem
    · exact Value.absorbs h.1.2
    · exact (hrest e hmem).2

end

theorem mergeInto_self {entries : Entries} (h : distinctEntries entries = true) : mergeInto entries entries = entries :=
  mergeInto_of_present (absorbs_of_distinct h)

/-- What has been merged is absorbed. -/
theorem mergeInto_absorbed {incoming : Entries} (h : distinctEntries incoming = true) (present : Entries) :
    mergeInto incoming (mergeInto incoming present) = mergeInto incoming present := by
  have hjoins : joinsEntries incoming incoming = true := joinsEntries_of_present (absorbs_of_distinct h)
  calc mergeInto incoming (mergeInto incoming present)
      = mergeInto (mergeInto incoming incoming) present :=
        (mergeInto_mergeInto hjoins (distinctEntries_iff.mp h).2 h present).symm
    _ = mergeInto incoming present := by rw [mergeInto_self h]

/-! ### Documents -/

namespace Document

/-- Holds of a document that another one has been merged into. The keys of the first stand in their places, and those that only the second has stand behind them. A key of one of the two has its value there. Under a key of both, two chains are merged, and otherwise the value is that of the second. -/
structure MergeOf (first second merged : Document) : Prop where
  style_eq : merged.style = first.style
  keys_eq : merged.keys = first.keys ++ second.keys.filter (· ∉ first.keys)
  get?_first : ∀ key, second.get? key = none → merged.get? key = first.get? key
  get?_second : ∀ key, first.get? key = none → merged.get? key = second.get? key
  get?_chains : ∀ key entries more, first.get? key = some (.map .chained entries) →
    second.get? key = some (.map .chained more) →
    merged.get? key = some (merge { style := .chained, entries } { style := .chained, entries := more }).value
  get?_both : ∀ key value later, first.get? key = some value → second.get? key = some later →
    (¬ ∃ entries more, value = .map .chained entries ∧ later = .map .chained more) →
    merged.get? key = some later

theorem get?_merge (first : Document) {second : Document} (hsecond : second.distinct = true) (key : String) :
    (first.merge second).get? key =
      match second.get? key with
      | none => first.get? key
      | some value => some (value.onto (first.get? key)) :=
  get?_mergeInto (distinctEntries_iff.mp hsecond).1 first.entries key

theorem mergeOf_merge (first : Document) {second : Document} (hsecond : second.distinct = true) :
    first.MergeOf second (first.merge second) where
  style_eq := rfl
  keys_eq := keys_mergeInto (distinctEntries_iff.mp hsecond).1 first.entries
  get?_first key hnone := by rw [get?_merge first hsecond, hnone]
  get?_second key hnone := by
    rw [get?_merge first hsecond, hnone]
    cases second.get? key <;> rfl
  get?_chains key entries more hfirst hsome := by
    rw [get?_merge first hsecond, hsome, hfirst]
    show some (Value.over (.map .chained more) (.map .chained entries)) = _
    rw [Value.over]
    rfl
  get?_both key value later hfirst hsome hchains := by
    rw [get?_merge first hsecond, hsome, hfirst]
    show some (later.over value) = some later
    rw [Value.over_of_not_chains hchains]

/-- Merging keeps to its laws: it joins the entries of two documents, keeps their keys distinct on every level, does nothing the second time, and does nothing to a document that is merged into itself. -/
theorem merge_laws {first second : Document} (hfirst : first.distinct = true) (hsecond : second.distinct = true) :
    first.MergeOf second (first.merge second) ∧
      (first.merge second).distinct = true ∧
      (first.merge second).merge second = first.merge second ∧
      first.merge first = first := by
  refine ⟨mergeOf_merge first hsecond, ?_, ?_, ?_⟩
  · exact distinctEntries_mergeInto (distinctEntries_iff.mp hsecond).2 hfirst
  · show { first with entries := mergeInto second.entries (mergeInto second.entries first.entries) } = first.merge second
    rw [mergeInto_absorbed hsecond]
    rfl
  · show { first with entries := mergeInto first.entries first.entries } = first
    rw [mergeInto_self hfirst]

/-- A chain that is joined on two levels, one that is overwritten, and one that overwrites a number. -/
theorem merge_laws_threeChains :
    let first : Document := { entries := [
      ("ltm", .map .chained [("pool", .map .chained [("web", .block [])])]),
      ("dns", .map .chained [("search", .absent)]), ("ntp", .int 1)] }
    let second : Document := { entries := [
      ("ntp", .map .chained [("timezone", .text "UTC")]), ("cli", .bool true),
      ("ltm", .map .chained [("node", .block []), ("pool", .map .chained [("mail", .toggle)])]), ("dns", .toggle)] }
    let merged : Document := { entries := [
      ("ltm", .map .chained [("pool", .map .chained [("web", .block []), ("mail", .toggle)]), ("node", .block [])]),
      ("dns", .toggle), ("ntp", .map .chained [("timezone", .text "UTC")]), ("cli", .bool true)] }
    first.distinct = true ∧ second.distinct = true ∧ first.merge second = merged ∧
      first.MergeOf second merged ∧ merged.distinct = true ∧ merged.merge second = merged ∧
      first.merge first = first := by
  intro first second merged
  have hfirst : first.distinct = true := by decide
  have hsecond : second.distinct = true := by decide
  have hmerged : first.merge second = merged := rfl
  obtain ⟨hmerge, hdistinct, habsorbed, hself⟩ := merge_laws hfirst hsecond
  rw [hmerged] at hmerge hdistinct habsorbed
  exact ⟨hfirst, hsecond, hmerged, hmerge, hdistinct, habsorbed, hself⟩

end Document

end ApplianceConfig
