import ApplianceConfig.Document.Equality
import ApplianceConfig.Proofs.Document.Surroundings

/-!
# Equality and normal forms

Equality of documents compares entry by entry and takes each set as a bag of items. Putting all mappings in braces and sorting all sets gives a normal form, and two values are equal exactly if their normal forms are the same. So equality is an equivalence, and what it sees of a document is what the normal form keeps: the order of entries, and how often an item occurs.
-/

namespace ApplianceConfig

/-- Sorting forgets the order of a list and nothing else. -/
theorem mergeSort_eq_iff_perm {items others : List String} :
    items.mergeSort (· ≤ ·) = others.mergeSort (· ≤ ·) ↔ items.Perm others := by
  have hperm := fun l : List String => l.mergeSort_perm (· ≤ ·)
  constructor
  · intro h
    exact (hperm items).symm.trans (h ▸ hperm others)
  · intro h
    have hsorted (l : List String) : (l.mergeSort (· ≤ ·)).Pairwise fun a b => decide (a ≤ b) = true :=
      List.pairwise_mergeSort (by simpa using fun _ _ _ => String.le_trans) (by simpa using String.le_total) l
    exact List.Perm.eq_of_pairwise (fun a b _ _ hab hba => String.le_antisymm (of_decide_eq_true hab) (of_decide_eq_true hba))
      (hsorted items) (hsorted others) ((hperm items).trans (h.trans (hperm others).symm))

/-! ### Equal values -/

mutual

theorem Value.same_iff_normalize (value other : Value) :
    value.same other = true ↔ value.normalize = other.normalize := by
  match value with
  | .map _ entries =>
    cases other with
    | map _ others =>
      rw [Value.same, Value.normalize, Value.normalize, sameEntries_iff_normalizeEntries entries others]
      simp
    | toggle | absent | bool | int | text | raw | set => simp [Value.same, Value.normalize]
  | .set items =>
    cases other with
    | set others => simp [Value.same, Value.normalize, List.isPerm_iff, mergeSort_eq_iff_perm]
    | toggle | absent | bool | int | text | raw | map => simp [Value.same, Value.normalize]
  | .toggle | .absent | .bool _ | .int _ | .text _ | .raw _ => cases other <;> simp [Value.same, Value.normalize]

theorem sameEntries_iff_normalizeEntries (entries others : List (String × Value)) :
    sameEntries entries others = true ↔ normalizeEntries entries = normalizeEntries others := by
  match entries, others with
  | [], [] | [], _ :: _ | _ :: _, [] => simp [sameEntries, normalizeEntries]
  | (key, value) :: rest, (other, present) :: more =>
    simp [sameEntries, normalizeEntries, Value.same_iff_normalize value present, sameEntries_iff_normalizeEntries rest more]

end

/-- The document without its styles and with all sets sorted. -/
def Document.normalize (doc : Document) : Document := { entries := normalizeEntries doc.entries }

theorem Value.beq_iff_normalize {value other : Value} : (value == other) = true ↔ value.normalize = other.normalize :=
  Value.same_iff_normalize value other

theorem Document.beq_iff_entries {doc other : Document} :
    (doc == other) = true ↔ normalizeEntries doc.entries = normalizeEntries other.entries :=
  sameEntries_iff_normalizeEntries doc.entries other.entries

theorem Document.beq_iff_normalize {doc other : Document} : (doc == other) = true ↔ doc.normalize = other.normalize := by
  simp [beq_iff_entries, normalize]

mutual

/-- A normal form is its own normal form. -/
theorem Value.normalize_normalize (value : Value) : value.normalize.normalize = value.normalize := by
  match value with
  | .map _ entries => rw [Value.normalize, Value.normalize, normalizeEntries_normalizeEntries entries]
  | .set items =>
    rw [Value.normalize, Value.normalize, mergeSort_eq_iff_perm.mpr (items.mergeSort_perm _)]
  | .toggle | .absent | .bool _ | .int _ | .text _ | .raw _ => rfl

theorem normalizeEntries_normalizeEntries (entries : List (String × Value)) :
    normalizeEntries (normalizeEntries entries) = normalizeEntries entries := by
  match entries with
  | [] => rfl
  | (key, value) :: rest =>
    rw [normalizeEntries, normalizeEntries, value.normalize_normalize, normalizeEntries_normalizeEntries rest]

end

/-! ### Equality everywhere -/

theorem normalizeEntries_append (entries more : Entries) :
    normalizeEntries (entries ++ more) = normalizeEntries entries ++ normalizeEntries more := by
  induction entries with
  | nil => rfl
  | cons e entries ih => rw [List.cons_append, normalizeEntries, normalizeEntries, ih, List.cons_append]

/-- Entries that differ in one value are equal exactly if this value is. -/
theorem normalizeEntries_split {front back : Entries} {key : String} {value other : Value} :
    normalizeEntries (front ++ (key, value) :: back) = normalizeEntries (front ++ (key, other) :: back) ↔
      value.normalize = other.normalize := by
  rw [normalizeEntries_append, normalizeEntries_append, normalizeEntries, normalizeEntries]
  simp

theorem normalizeEntries_fill (around : Surroundings) {inner after : Entries} :
    normalizeEntries (around.fill inner) = normalizeEntries (around.fill after) ↔
      normalizeEntries inner = normalizeEntries after := by
  induction around with
  | nil => rfl
  | cons frame around ih =>
    rw [Surroundings.fill_cons, Surroundings.fill_cons, Frame.fill, Frame.fill, normalizeEntries_split, Value.normalize,
      Value.normalize, ← ih]
    simp

/-- Documents that differ in one place are equal exactly if what stands there is. -/
theorem Document.beq_replaceAt? {doc first second : Document} {path : List String} {value other : Value}
    (hfirst : doc.replaceAt? path value = some first) (hsecond : doc.replaceAt? path other = some second) :
    (first == second) = true ↔ (value == other) = true := by
  obtain ⟨entries, hentries, rfl⟩ := Option.map_eq_some_iff.mp hfirst
  obtain ⟨others, hothers, rfl⟩ := Option.map_eq_some_iff.mp hsecond
  obtain ⟨around, front, key, present, back, rfl, hnew, hdoc, rfl⟩ := Entries.replaceAt?_eq_some_iff.mp hentries
  rw [Entries.replaceAt?_eq_some_iff.mpr ⟨around, front, key, present, back, rfl, hnew, hdoc, rfl⟩] at hothers
  cases hothers
  rw [beq_iff_entries, Value.beq_iff_normalize, normalizeEntries_fill, normalizeEntries_split]

/-! ### Order and multiplicity -/

theorem keys_normalizeEntries (entries : Entries) : Assoc.keys (normalizeEntries entries) = Assoc.keys entries := by
  induction entries with
  | nil => rfl
  | cons e entries ih => exact congrArg (e.1 :: ·) ih

/-- Distinct keys in one order have their entries in one order. -/
theorem Assoc.eq_of_perm {α : Type} {entries others : Assoc α} (hperm : entries.Perm others)
    (hnodup : (keys entries).Nodup) (hkeys : keys entries = keys others) : entries = others := by
  induction entries generalizing others with
  | nil => exact hperm.nil_eq
  | cons e rest ih =>
    cases others with
    | nil => cases hkeys
    | cons f more =>
      obtain ⟨hkey, hrest⟩ := List.cons.inj hkeys
      obtain ⟨hnew, hnodup⟩ := List.nodup_cons.mp hnodup
      have hfirst : f = e := by
        refine (List.mem_cons.mp (hperm.mem_iff.mpr List.mem_cons_self)).resolve_right fun hmem => hnew ?_
        exact hkey ▸ List.mem_map_of_mem hmem
      rw [hfirst] at hperm ⊢
      rw [ih hperm.cons_inv hnodup hrest]

/-- Two mappings with the same entries are equal only if the entries come in the same order. -/
theorem Value.beq_map_iff_of_perm {style other : Style} {entries others : Entries} (hperm : entries.Perm others)
    (hnodup : (Assoc.keys entries).Nodup) : (Value.map style entries == .map other others) = true ↔ entries = others := by
  rw [Value.beq_iff_normalize, Value.normalize, Value.normalize, Value.map.injEq, and_iff_right rfl]
  constructor
  · intro h
    refine Assoc.eq_of_perm hperm hnodup ?_
    rw [← keys_normalizeEntries, h, keys_normalizeEntries]
  · rintro rfl
    rfl

theorem Value.beq_set_iff {items others : List String} :
    (Value.set items == .set others) = true ↔ ∀ item, items.count item = others.count item := by
  rw [← List.perm_iff_count, ← mergeSort_eq_iff_perm, Value.beq_iff_normalize, Value.normalize, Value.normalize,
    Value.set.injEq]

/-- Equality of documents is identity of normal forms. So it is an equivalence, and a document is equal to its normal form. It tells mappings with the same entries in another order apart, and sets in which an item occurs more often. What is equal can stand for each other at any place. -/
theorem Document.beq_normal_forms :
    (∀ value other : Value, (value == other) = true ↔ value.normalize = other.normalize) ∧
    (∀ doc other : Document, (doc == other) = true ↔ doc.normalize = other.normalize) ∧
    (Equivalence fun value other : Value => (value == other) = true) ∧
    (Equivalence fun doc other : Document => (doc == other) = true) ∧
    (∀ doc : Document, (doc == doc.normalize) = true) ∧
    (∀ (style other : Style) (entries others : Entries), entries.Perm others → (Assoc.keys entries).Nodup →
      ((Value.map style entries == .map other others) = true ↔ entries = others)) ∧
    (∀ items others : List String,
      (Value.set items == .set others) = true ↔ ∀ item, items.count item = others.count item) ∧
    ∀ (doc : Document) (path : List String) (value other : Value) (first second : Document),
      doc.replaceAt? path value = some first → doc.replaceAt? path other = some second →
      ((first == second) = true ↔ (value == other) = true) := by
  have hvalues : Equivalence fun value other : Value => (value == other) = true := by
    simp only [Value.beq_iff_normalize]
    exact ⟨fun _ => rfl, Eq.symm, Eq.trans⟩
  have hdocs : Equivalence fun doc other : Document => (doc == other) = true := by
    simp only [beq_iff_normalize]
    exact ⟨fun _ => rfl, Eq.symm, Eq.trans⟩
  refine ⟨fun _ _ => Value.beq_iff_normalize, fun _ _ => beq_iff_normalize, hvalues, hdocs, fun doc => ?_,
    fun _ _ _ _ => Value.beq_map_iff_of_perm, fun _ _ => Value.beq_set_iff, fun _ _ _ _ _ _ => beq_replaceAt?⟩
  exact beq_iff_entries.mpr (normalizeEntries_normalizeEntries doc.entries).symm

/-- Sets and mappings in a chain: what is equal there is a set in another order, and neither a set with an item less nor a mapping in another order. -/
theorem Document.beq_normal_forms_chainedPool :
    let doc (value : Value) : Document := { entries := [("ltm", .map .chained [("pool", value)])] }
    let entries : Entries := [("web", .toggle), ("mail", .absent)]
    let path := ["ltm", "pool"]
    (doc .toggle).replaceAt? path (.set ["b", "a", "b"]) = some (doc (.set ["b", "a", "b"])) ∧
      (doc .toggle).replaceAt? path (.set ["a", "b", "b"]) = some (doc (.set ["a", "b", "b"])) ∧
      (doc (.set ["b", "a", "b"]) == doc (.set ["a", "b", "b"])) = true ∧
      ¬ (Value.set ["b", "a", "b"] == .set ["a", "b"]) = true ∧
      entries.Perm entries.reverse ∧ (Assoc.keys entries).Nodup ∧
      ¬ (Value.map .braced entries == .map .chained entries.reverse) = true := by
  intro doc entries path
  obtain ⟨-, -, -, -, -, horder, hcount, hplace⟩ := beq_normal_forms
  have hequal : (Value.set ["b", "a", "b"] == .set ["a", "b", "b"]) = true := (hcount _ _).mpr fun item => by
    simp only [List.count_cons, List.count_nil]
    omega
  have hfewer : ¬ (Value.set ["b", "a", "b"] == .set ["a", "b"]) = true := fun h => absurd ((hcount _ _).mp h "b") (by decide)
  have hperm : entries.Perm entries.reverse := entries.reverse_perm.symm
  have hnodup : (Assoc.keys entries).Nodup := by decide
  refine ⟨rfl, rfl, (hplace (doc .toggle) path _ _ _ _ rfl rfl).mpr hequal, hfewer, hperm, hnodup, fun h => ?_⟩
  exact absurd (congrArg Assoc.keys ((horder _ _ _ _ hperm hnodup).mp h)) (by decide)

end ApplianceConfig
