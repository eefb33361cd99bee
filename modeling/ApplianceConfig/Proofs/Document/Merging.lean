import ApplianceConfig.Document.Merge
import ApplianceConfig.Proofs.Document.Writable

/-!
# Laws of merging

Merging writes entries into a mapping, and what is written last stays. Keys that are distinct on every level stay so.

Merging is associative where chains are written over chains only. Otherwise it need not be: a number over a chain, and then another chain over the number, leave the last chain alone. If that one and the number are merged first, the number is gone, and the last chain joins the first.
-/

namespace ApplianceConfig

/-- What stays at a key when a value is written there. -/
def Value.onto (value : Value) : Option Value → Value
  | none => value
  | some earlier => value.over earlier

theorem mergeInto_cons (key : String) (value : Value) (rest present : Entries) :
    mergeInto ((key, value) :: rest) present = mergeInto rest (Assoc.alter present key value.onto) := by
  rw [mergeInto]
  rfl

theorem Entries.mergeEntry_eq (entries : Entries) (key : String) (value : Value) :
    entries.mergeEntry key value = Assoc.alter entries key value.onto := by
  rw [mergeEntry, mergeInto_cons, mergeInto]

mutual

/-- Holds when writing the first value over the second puts no chain in the place of a value that is none. Chains that meet are merged entry by entry. -/
def Value.joins : Value → Value → Bool
  | .map .chained incoming, .map .chained present => joinsEntries incoming present
  | .map .chained _, _ => false
  | _, _ => true

/-- Holds when entries that are written one after another put no chain in the place of a value that is none. -/
def joinsEntries : List (String × Value) → List (String × Value) → Bool
  | [], _ => true
  | (key, value) :: rest, present =>
    (Assoc.get? present key).all value.joins && joinsEntries rest (Entries.mergeEntry present key value)

end

/-! ### Distinct keys -/

theorem distinctEntries_alter {entries : Entries} (h : distinctEntries entries = true) (key : String)
    {f : Option Value → Value} (hnone : (f none).distinct = true)
    (hsome : ∀ v, v.distinct = true → (f (some v)).distinct = true) :
    distinctEntries (Assoc.alter entries key f) = true := by
  rw [distinctEntries_iff] at h ⊢
  refine ⟨Assoc.nodup_keys_alter h.1 key f, fun e he => ?_⟩
  obtain hmem | rfl | ⟨v, hmem, rfl⟩ := Assoc.mem_alter he
  · exact h.2 e hmem
  · exact hnone
  · exact hsome v (h.2 _ hmem)

mutual

theorem Value.distinct_over {value present : Value} (hvalue : value.distinct = true)
    (hpresent : present.distinct = true) : (value.over present).distinct = true := by
  match value with
  | .map .chained incoming =>
    cases present with
    | map style entries =>
      cases style with
      | chained =>
        rw [Value.over, Value.distinct]
        exact distinctEntries_mergeInto (distinctEntries_iff.mp hvalue).2 hpresent
      | braced | bare => exact hvalue
    | toggle | absent | bool | int | text | raw | set => exact hvalue
  | .map .braced _ | .map .bare _ => exact hvalue
  | .toggle | .absent | .bool _ | .int _ | .text _ | .raw _ | .set _ => exact hvalue

/-- Keys that are distinct on every level stay so. -/
theorem distinctEntries_mergeInto {incoming present : Entries} (hvalues : ∀ e ∈ incoming, e.2.distinct = true)
    (hpresent : distinctEntries present = true) : distinctEntries (mergeInto incoming present) = true := by
  match incoming with
  | [] => exact hpresent
  | (key, value) :: rest =>
    rw [List.forall_mem_cons] at hvalues
    rw [mergeInto_cons]
    have hnext : distinctEntries (Assoc.alter present key value.onto) = true :=
      distinctEntries_alter hpresent key hvalues.1 fun v hv => Value.distinct_over hvalues.1 hv
    exact distinctEntries_mergeInto hvalues.2 hnext

end

/-! ### Associativity -/

/-- Writing to a key that is there changes places with writing other keys. -/
theorem alter_mergeInto {present : Entries} {key : String} (hkey : key ∈ Assoc.keys present)
    (f : Option Value → Value) {incoming : Entries} (hother : key ∉ Assoc.keys incoming) :
    Assoc.alter (mergeInto incoming present) key f = mergeInto incoming (Assoc.alter present key f) := by
  induction incoming generalizing present with
  | nil => rfl
  | cons e rest ih =>
    obtain ⟨other, value⟩ := e
    obtain ⟨hne, hrest⟩ : key ≠ other ∧ key ∉ Assoc.keys rest := by simpa [Assoc.keys] using hother
    rw [mergeInto_cons, mergeInto_cons, ih (Assoc.mem_keys_alter.mpr (.inr hkey)) hrest,
      Assoc.alter_comm hkey hne]

/-- A value that is written before a merge is written after it as well, if it does not matter whether it is written over the value at its key before or after that one is written over another. -/
theorem mergeInto_alter {present : Entries} (hnodup : (Assoc.keys present).Nodup) {key : String} {value : Value}
    (hover : ∀ v ∈ Assoc.get? present key, ∀ w, (value.over v).over w = value.over (v.over w))
    (earlier : Entries) :
    mergeInto (Assoc.alter present key value.onto) earlier =
      Assoc.alter (mergeInto present earlier) key value.onto := by
  induction present generalizing earlier with
  | nil => rw [Assoc.alter, mergeInto_cons, mergeInto, mergeInto]; rfl
  | cons e rest ih =>
    obtain ⟨k, v⟩ := e
    obtain ⟨hk, hrest⟩ := List.nodup_cons.mp hnodup
    rw [Assoc.alter]
    by_cases heq : k = key
    · subst heq
      have honto : (fun w => value.onto (some (v.onto w))) = (value.over v).onto := by
        funext w
        cases w with
        | none => rfl
        | some w => exact (hover v (by simp [Assoc.get?]) w).symm
      rw [if_pos rfl, mergeInto_cons, mergeInto_cons, alter_mergeInto (Assoc.mem_keys_alter.mpr (.inl rfl)) _ hk,
        Assoc.alter_alter, honto]
      rfl
    · rw [Assoc.get?, if_neg heq] at hover
      rw [if_neg heq, mergeInto_cons, mergeInto_cons, ih hrest hover]

mutual

theorem Value.over_over {value present : Value} (hjoins : value.joins present = true)
    (hvalue : value.distinct = true) (hpresent : present.distinct = true) (earlier : Value) :
    (value.over present).over earlier = value.over (present.over earlier) := by
  match value with
  | .map .chained incoming =>
    cases present with
    | map style entries =>
      cases style with
      | chained =>
        cases earlier with
        | map style others =>
          cases style with
          | chained =>
            simp only [Value.over]
            rw [mergeInto_mergeInto hjoins (distinctEntries_iff.mp hvalue).2 hpresent]
          -- what is no chain is replaced by the first chain that comes
          | braced | bare => rfl
        | toggle | absent | bool | int | text | raw | set => rfl
      | braced | bare => cases hjoins
    | toggle | absent | bool | int | text | raw | set => cases hjoins
  | .map .braced _ | .map .bare _ => rfl
  | .toggle | .absent | .bool _ | .int _ | .text _ | .raw _ | .set _ => rfl

/-- Merging is associative as long as chains are written over chains only. -/
theorem mergeInto_mergeInto {incoming present : Entries} (hjoins : joinsEntries incoming present = true)
    (hvalues : ∀ e ∈ incoming, e.2.distinct = true) (hpresent : distinctEntries present = true)
    (earlier : Entries) :
    mergeInto (mergeInto incoming present) earlier = mergeInto incoming (mergeInto present earlier) := by
  match incoming with
  | [] => rw [mergeInto, mergeInto]
  | (key, value) :: rest =>
    rw [joinsEntries, Bool.and_eq_true, Entries.mergeEntry_eq] at hjoins
    obtain ⟨hvalue, hrest⟩ := List.forall_mem_cons.mp hvalues
    obtain ⟨hnodup, hpresents⟩ := distinctEntries_iff.mp hpresent
    have hnext : distinctEntries (Assoc.alter present key value.onto) = true :=
      distinctEntries_alter hpresent key hvalue fun v hv => Value.distinct_over hvalue hv
    have hover : ∀ v ∈ Assoc.get? present key, ∀ w, (value.over v).over w = value.over (v.over w) := by
      intro v hv w
      have hjoined : value.joins v = true := by simpa [Option.mem_def.mp hv] using hjoins.1
      exact Value.over_over hjoined hvalue (hpresents _ (Assoc.mem_of_get? hv)) w
    rw [mergeInto_cons, mergeInto_cons, mergeInto_mergeInto hjoins.2 hrest hnext, mergeInto_alter hnodup hover]

end

/-- A chain is written over a number, before or after the number is written over another chain. -/
example :
    let earlier : Entries := [("a", .map .chained [("c", .toggle)])]
    let number : Entries := [("a", .int 1)]
    let later : Entries := [("a", .map .chained [("b", .toggle)])]
    mergeInto (mergeInto later number) earlier = [("a", .map .chained [("c", .toggle), ("b", .toggle)])] ∧
      mergeInto later (mergeInto number earlier) = later :=
  ⟨rfl, rfl⟩

end ApplianceConfig
