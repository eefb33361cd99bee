import ApplianceConfig.Grammar.Reader
import ApplianceConfig.Proofs.Document.Writable
import ApplianceConfig.Proofs.Grammar.Productions

/-!
# Lines of chains

A chained mapping is written as lines, one for each value that is no such mapping itself, behind all keys that lead to it. Merging the lines one after another builds the mapping again: the first line of a chain makes its mapping, and each later one goes into it, behind what is there.
-/

namespace ApplianceConfig

open Grammar

mutual

/-- The values that a value is written as, each with the chained keys that lead to it. -/
def Value.lines : Value → List (List String × Value)
  | .map .chained (e :: entries) =>
    (linesOf (e :: entries)).map fun l => (l.1 :: l.2.1, l.2.2)
  | value => [([], value)]

/-- The lines of entries: a key, the chained keys behind it, and a value. -/
def linesOf : List (String × Value) → List (String × List String × Value)
  | [] => []
  | (key, value) :: rest => value.lines.map (fun l => (key, l.1, l.2)) ++ linesOf rest

end

/-- Holds of the values that take no line of their own for each entry. -/
def Value.isLeaf : Value → Bool
  | .map .chained (_ :: _) => false
  | _ => true

theorem Value.lines_of_isLeaf {value : Value} (h : value.isLeaf = true) :
    value.lines = [([], value)] := by
  match value, h with
  | .map .chained [], _ => rfl
  | .map .braced _, _ | .map .bare _, _ => rfl
  | .toggle, _ | .absent, _ | .bool _, _ | .int _, _ | .text _, _ | .raw _, _ | .set _, _ => rfl

/-! ### Merging lines -/

/-- The entry that a line is read back as. -/
def lineEntry (l : String × List String × Value) : String × Value :=
  (l.1, chain l.2.1 l.2.2.reread)

theorem Assoc.alter_append_of_not_mem {α : Type} {entries more : Assoc α} {key : String}
    (h : key ∉ keys entries) (f : Option α → α) :
    alter (entries ++ more) key f = entries ++ alter more key f := by
  induction entries with
  | nil => rfl
  | cons e entries ih =>
    obtain ⟨k, v⟩ := e
    simp only [keys, List.map_cons, List.mem_cons, not_or] at h
    rw [List.cons_append, alter, if_neg (Ne.symm h.1), ih h.2, List.cons_append]

theorem Assoc.not_mem_keys_append {α : Type} {present : Assoc α} {key other : String}
    (h : other ∉ keys present) (hne : other ≠ key) (value : α) :
    other ∉ keys (present ++ [(key, value)]) := by
  simp only [keys, List.map_append, List.map_cons, List.map_nil, List.mem_append,
    List.mem_singleton, not_or]
  exact ⟨h, hne⟩

theorem mergeInto_new {present : Entries} {key : String} (h : key ∉ Assoc.keys present)
    (value : Value) : mergeInto [(key, value)] present = present ++ [(key, value)] := by
  rw [mergeInto, mergeInto]
  rw [← List.append_nil present, Assoc.alter_append_of_not_mem (by simpa using h), List.append_nil]
  rfl

/-- Chained mappings of one key are merged behind each other in its place. -/
theorem mergeInto_chained {present : Entries} {key : String} (h : key ∉ Assoc.keys present)
    (entries inner : Entries) :
    mergeInto (entries.map fun e => (key, .map .chained [e]))
        (present ++ [(key, .map .chained inner)]) =
      present ++ [(key, .map .chained (mergeInto entries inner))] := by
  induction entries generalizing inner with
  | nil => rfl
  | cons e entries ih =>
    have hfirst : mergeInto [(key, .map .chained [e])] (present ++ [(key, .map .chained inner)]) =
        present ++ [(key, .map .chained (mergeInto [e] inner))] := by
      simp only [mergeInto]
      rw [Assoc.alter_append_of_not_mem h, Assoc.alter, if_pos rfl]
      simp only [Value.over, mergeInto]
    rw [List.map_cons, ← List.singleton_append, mergeInto_append, hfirst, ih, ← mergeInto_append]
    rfl

mutual

/-- Merging the lines of a value under a new key puts the value behind what is there. -/
theorem mergeInto_lines {value : Value} (hdistinct : value.distinct = true) {present : Entries}
    {key : String} (hkey : key ∉ Assoc.keys present) :
    mergeInto (value.lines.map fun l => lineEntry (key, l.1, l.2)) present =
      present ++ [(key, value.reread)] := by
  match value with
  | .map .chained ((k, v) :: entries) =>
    have hinner : mergeInto ((linesOf ((k, v) :: entries)).map lineEntry) [] =
        rereadEntries ((k, v) :: entries) :=
      mergeInto_linesOf (by simpa [Value.distinct] using hdistinct) fun _ _ => List.not_mem_nil
    have hlines : (Value.lines (.map .chained ((k, v) :: entries))).map
          (fun l => lineEntry (key, l.1, l.2)) =
        ((linesOf ((k, v) :: entries)).map lineEntry).map
          fun e => (key, Value.map .chained [e]) := by
      rw [Value.lines, List.map_map, List.map_map]
      rfl
    rw [hlines, Value.reread]
    cases hall : (linesOf ((k, v) :: entries)).map lineEntry with
    | nil =>
      rw [hall] at hinner
      cases hinner
    | cons first others =>
      rw [hall] at hinner
      rw [List.map_cons, ← List.singleton_append, mergeInto_append, mergeInto_new hkey,
        mergeInto_chained hkey, ← hinner]
      rfl
  | .map .chained [] => exact mergeInto_new hkey _
  | .map .braced _ | .map .bare _ => exact mergeInto_new hkey _
  | .toggle | .absent | .bool _ | .int _ | .text _ | .raw _ | .set _ => exact mergeInto_new hkey _

theorem mergeInto_linesOf {entries : List (String × Value)}
    (hdistinct : distinctEntries entries = true) {present : Entries}
    (hkeys : ∀ key ∈ Assoc.keys entries, key ∉ Assoc.keys present) :
    mergeInto ((linesOf entries).map lineEntry) present = present ++ rereadEntries entries := by
  match entries with
  | [] => exact (List.append_nil present).symm
  | (key, value) :: rest =>
    simp only [distinctEntries, Bool.and_eq_true, Bool.not_eq_true'] at hdistinct
    obtain ⟨⟨hkey, hvalue⟩, hrest⟩ := hdistinct
    have hmap : (value.lines.map fun l => (key, l.1, l.2)).map lineEntry =
        value.lines.map fun l => lineEntry (key, l.1, l.2) := by rw [List.map_map]; rfl
    rw [linesOf, List.map_append, mergeInto_append, hmap,
      mergeInto_lines hvalue (hkeys key List.mem_cons_self), mergeInto_linesOf hrest, rereadEntries,
      List.append_assoc, List.singleton_append]
    intro other hother
    refine Assoc.not_mem_keys_append (hkeys other (List.mem_cons_of_mem key hother)) ?_ _
    rintro rfl
    exact Assoc.not_mem_keys_of_contains hkey hother

end

/-! ### What lines keep of their document -/

/-- Holds of the lines that can be read back: all keys are words, and the value stands where it may. -/
structure WritableLine (l : String × List String × Value) : Prop where
  key : isBare l.1 = true
  path : ∀ key ∈ l.2.1, isBare key = true
  leaf : l.2.2.isLeaf = true
  value : ∃ place, l.2.2.writable place = true ∧ (l.2.1 ≠ [] → place = .chain)

mutual

private theorem Value.writable_lines {value : Value} {place : Place}
    (hwritable : value.writable place = true) :
    ∀ l ∈ value.lines, (∀ key ∈ l.1, isBare key = true) ∧ l.2.isLeaf = true ∧
      ∃ p, l.2.writable p = true ∧ (place = .chain ∨ l.1 ≠ [] → p = .chain) := by
  match value with
  | .map .chained (e :: entries) =>
    simp only [Value.writable, Bool.and_eq_true] at hwritable
    intro l hl
    rw [Value.lines, List.mem_map] at hl
    obtain ⟨l', hl', rfl⟩ := hl
    obtain ⟨hkey, hpath, hleaf, p, hvalue, hplace⟩ := writable_linesOf hwritable.2 l' hl'
    exact ⟨List.forall_mem_cons.mpr ⟨hkey, hpath⟩, hleaf, p, hvalue, fun _ => hplace (.inl rfl)⟩
  | .map .chained [] | .map .braced _ | .map .bare _ =>
    intro l hl
    cases List.mem_singleton.mp hl
    exact ⟨nofun, rfl, place, hwritable, by simp⟩
  | .toggle | .absent | .bool _ | .int _ | .text _ | .raw _ | .set _ =>
    intro l hl
    cases List.mem_singleton.mp hl
    exact ⟨nofun, rfl, place, hwritable, by simp⟩

private theorem writable_linesOf {entries : List (String × Value)} {place : Place}
    (hwritable : writableEntries place entries = true) :
    ∀ l ∈ linesOf entries, isBare l.1 = true ∧ (∀ key ∈ l.2.1, isBare key = true) ∧
      l.2.2.isLeaf = true ∧ ∃ p, l.2.2.writable p = true ∧ (place = .chain ∨ l.2.1 ≠ [] → p = .chain) := by
  match entries with
  | [] => exact nofun
  | (key, value) :: rest =>
    simp only [writableEntries, Bool.and_eq_true] at hwritable
    obtain ⟨⟨hkey, hvalue⟩, hrest⟩ := hwritable
    intro l hl
    rw [linesOf, List.mem_append, List.mem_map] at hl
    rcases hl with ⟨l', hl', rfl⟩ | hl
    · exact ⟨hkey, Value.writable_lines hvalue l' hl'⟩
    · exact writable_linesOf hrest l hl

end

theorem writableLine_of_mem {entries : List (String × Value)} {place : Place}
    (hwritable : writableEntries place entries = true) :
    ∀ l ∈ linesOf entries, WritableLine l := by
  intro l hl
  obtain ⟨hkey, hpath, hleaf, p, hvalue, hplace⟩ := writable_linesOf hwritable l hl
  exact ⟨hkey, hpath, hleaf, p, hvalue, fun h => hplace (.inr h)⟩

mutual

theorem Value.distinct_of_mem_lines {value : Value} (hdistinct : value.distinct = true) :
    ∀ l ∈ value.lines, l.2.distinct = true := by
  match value with
  | .map .chained (e :: entries) =>
    intro l hl
    rw [Value.lines, List.mem_map] at hl
    obtain ⟨l', hl', rfl⟩ := hl
    rw [Value.distinct] at hdistinct
    exact distinct_of_mem_linesOf hdistinct l' hl'
  | .map .chained [] | .map .braced _ | .map .bare _ =>
    intro l hl
    cases List.mem_singleton.mp hl
    exact hdistinct
  | .toggle | .absent | .bool _ | .int _ | .text _ | .raw _ | .set _ =>
    intro l hl
    cases List.mem_singleton.mp hl
    exact hdistinct

theorem distinct_of_mem_linesOf {entries : List (String × Value)}
    (hdistinct : distinctEntries entries = true) :
    ∀ l ∈ linesOf entries, l.2.2.distinct = true := by
  match entries with
  | [] => exact nofun
  | (key, value) :: rest =>
    simp only [distinctEntries, Bool.and_eq_true] at hdistinct
    intro l hl
    rw [linesOf, List.mem_append, List.mem_map] at hl
    rcases hl with ⟨l', hl', rfl⟩ | hl
    · exact Value.distinct_of_mem_lines hdistinct.1.2 l' hl'
    · exact distinct_of_mem_linesOf hdistinct.2 l hl

end

end ApplianceConfig
