import ApplianceConfig.Document.Path
import ApplianceConfig.Proofs.Document.Overwriting

/-!
# Mappings and what stands around them

A path leads to a mapping through others. What stands around that mapping is told apart from it here: for each mapping on the way, the entries in front of the key that the path takes, the style of what is behind that key, and the entries behind it. A change at a path puts another mapping into the same surroundings, and a path that turns off before it gets there does not see the difference.
-/

namespace ApplianceConfig

namespace Assoc

variable {α : Type} {entries front back : Assoc α} {key : String}

theorem contains_iff : contains entries key = true ↔ key ∈ keys entries := by
  constructor
  · intro h
    by_contra hkey
    rw [contains_of_not_mem_keys hkey] at h
    cases h
  · intro hkey
    by_contra h
    exact not_mem_keys_of_contains (Bool.eq_false_iff.mpr h) hkey

theorem get?_eq_none_iff : get? entries key = none ↔ key ∉ keys entries := by
  rw [← Option.not_isSome_iff_eq_none]
  exact contains_iff.not

theorem get?_split (hfirst : key ∉ keys front) (value : α) (back : Assoc α) :
    get? (front ++ (key, value) :: back) key = some value :=
  get?_eq_some_iff.mpr ⟨front, back, rfl, hfirst⟩

theorem get?_split_of_ne {other : String} (hne : other ≠ key) (front : Assoc α) (value : α) (back : Assoc α) :
    get? (front ++ (key, value) :: back) other = get? (front ++ back) other := by
  rw [get?_append, get?_append, get?, if_neg hne.symm]

theorem keys_split (front : Assoc α) (key : String) (value : α) (back : Assoc α) :
    keys (front ++ (key, value) :: back) = keys front ++ key :: keys back := keys_append ..

theorem put_split (hfirst : key ∉ keys front) (value after : α) (back : Assoc α) :
    put (front ++ (key, value) :: back) key after = front ++ (key, after) :: back := by
  rw [put_append_of_not_mem hfirst, put, alter, if_pos rfl]

theorem modify?_split (hfirst : key ∉ keys front) (value : α) (back : Assoc α) (f : α → Option α) :
    modify? (front ++ (key, value) :: back) key f = (f value).map fun after => front ++ (key, after) :: back := by
  induction front with
  | nil => rw [List.nil_append, modify?, if_pos rfl]; rfl
  | cons e front ih =>
    obtain ⟨k, v⟩ := e
    obtain ⟨hne, hfront⟩ : key ≠ k ∧ key ∉ keys front := by simpa [keys] using hfirst
    rw [List.cons_append, modify?, if_neg hne.symm, ih hfront, Option.map_map]
    rfl

theorem modify?_of_get?_eq_none (h : get? entries key = none) (f : α → Option α) : modify? entries key f = none := by
  induction entries with
  | nil => rfl
  | cons e entries ih =>
    obtain ⟨k, v⟩ := e
    rw [get?] at h
    by_cases hk : k = key
    · rw [if_pos hk] at h
      cases h
    · rw [if_neg hk] at h
      rw [modify?, if_neg hk, ih h, Option.map_none]

theorem modify?_eq_some_iff {f : α → Option α} {changed : Assoc α} :
    modify? entries key f = some changed ↔ ∃ front value back after, entries = front ++ (key, value) :: back ∧
      key ∉ keys front ∧ f value = some after ∧ changed = front ++ (key, after) :: back := by
  constructor
  · intro h
    cases hvalue : get? entries key with
    | none =>
      rw [modify?_of_get?_eq_none hvalue] at h
      cases h
    | some value =>
      obtain ⟨front, back, rfl, hfirst⟩ := get?_eq_some_iff.mp hvalue
      rw [modify?_split hfirst, Option.map_eq_some_iff] at h
      obtain ⟨after, hafter, rfl⟩ := h
      exact ⟨front, value, back, after, rfl, hfirst, hafter, rfl⟩
  · rintro ⟨front, value, back, after, rfl, hfirst, hafter, rfl⟩
    rw [modify?_split hfirst, hafter, Option.map_some]

end Assoc

theorem singleton_prefix_cons_iff {key first : String} {rest : List String} : [key] <+: first :: rest ↔ key = first := by
  rw [List.cons_prefix_cons, and_iff_left List.nil_prefix]

theorem distinctEntries_split {front back : Entries} {key : String} {value : Value} :
    distinctEntries (front ++ (key, value) :: back) = true ↔
      key ∉ Assoc.keys (front ++ back) ∧ distinctEntries (front ++ back) = true ∧ value.distinct = true := by
  rw [distinctEntries_iff, distinctEntries_iff, Assoc.keys_split, Assoc.keys_append, List.nodup_middle, List.nodup_cons,
    List.forall_mem_append, List.forall_mem_cons, List.forall_mem_append]
  constructor
  · rintro ⟨⟨hkey, hkeys⟩, hfront, hvalue, hback⟩
    exact ⟨hkey, ⟨hkeys, hfront, hback⟩, hvalue⟩
  · rintro ⟨hkey, ⟨hkeys, hfront, hback⟩, hvalue⟩
    exact ⟨⟨hkey, hkeys⟩, hfront, hvalue, hback⟩

/-! ### Surroundings -/

/-- A mapping without the mapping that stands behind one of its keys. -/
structure Frame where
  front : Entries
  key : String
  style : Style
  back : Entries
  first : key ∉ Assoc.keys front

/-- The frame with a mapping in it. -/
def Frame.fill (frame : Frame) (inner : Entries) : Entries :=
  frame.front ++ (frame.key, .map frame.style inner) :: frame.back

/-- All that stands around a mapping, from the outermost frame inwards. -/
abbrev Surroundings := List Frame

namespace Surroundings

/-- The keys that lead through the frames. -/
def path (around : Surroundings) : List String := around.map Frame.key

def fill (around : Surroundings) (inner : Entries) : Entries := around.foldr Frame.fill inner

@[simp] theorem path_cons (frame : Frame) (around : Surroundings) : path (frame :: around) = frame.key :: path around := rfl

@[simp] theorem fill_cons (frame : Frame) (around : Surroundings) (inner : Entries) :
    fill (frame :: around) inner = frame.fill (fill around inner) := rfl

theorem fill_append (outer around : Surroundings) (inner : Entries) :
    fill (outer ++ around) inner = fill outer (fill around inner) := List.foldr_append

end Surroundings

namespace Frame

theorem get?_fill (frame : Frame) (inner : Entries) :
    Assoc.get? (frame.fill inner) frame.key = some (.map frame.style inner) := Assoc.get?_split frame.first _ _

theorem get?_fill_of_ne {frame : Frame} {key : String} (hne : key ≠ frame.key) (inner after : Entries) :
    Assoc.get? (frame.fill inner) key = Assoc.get? (frame.fill after) key := by
  rw [fill, fill, Assoc.get?_split_of_ne hne, Assoc.get?_split_of_ne hne]

theorem keys_fill (frame : Frame) (inner : Entries) :
    Assoc.keys (frame.fill inner) = Assoc.keys frame.front ++ frame.key :: Assoc.keys frame.back :=
  Assoc.keys_split ..

theorem distinctEntries_fill {frame : Frame} {inner : Entries} (h : distinctEntries (frame.fill inner) = true) :
    distinctEntries inner = true ∧ ∀ after, distinctEntries after = true → distinctEntries (frame.fill after) = true := by
  obtain ⟨hkey, hothers, hinner⟩ := distinctEntries_split.mp h
  exact ⟨hinner, fun after hafter => distinctEntries_split.mpr ⟨hkey, hothers, hafter⟩⟩

end Frame

/-- Distinct keys stay distinct when another mapping with distinct keys is put into the same surroundings. -/
theorem Surroundings.distinctEntries_fill {around : Surroundings} {inner : Entries}
    (h : distinctEntries (around.fill inner) = true) :
    distinctEntries inner = true ∧ ∀ after, distinctEntries after = true → distinctEntries (around.fill after) = true := by
  induction around with
  | nil => exact ⟨h, fun _ hafter => hafter⟩
  | cons frame around ih =>
    obtain ⟨hfilled, hframe⟩ := Frame.distinctEntries_fill h
    obtain ⟨hinner, haround⟩ := ih hfilled
    exact ⟨hinner, fun after hafter => hframe _ (haround after hafter)⟩

namespace Entries

variable {entries inner after : Entries} {path : List String} {around : Surroundings}

/-! ### Mappings at a path -/

theorem block?_congr {other : Entries} {key otherKey : String} (h : Assoc.get? entries key = Assoc.get? other otherKey)
    (rest : List String) : block? entries (key :: rest) = block? other (otherKey :: rest) := by
  rw [block?, block?, h]

theorem block?_of_get?_eq_none {key : String} (h : Assoc.get? entries key = none) (rest : List String) :
    block? entries (key :: rest) = none := by
  rw [block?, h]

theorem block?_cons_eq_some_iff {key : String} {rest : List String} : block? entries (key :: rest) = some inner ↔
    ∃ style block, Assoc.get? entries key = some (.map style block) ∧ block? block rest = some inner := by
  rw [block?]
  constructor
  · intro h
    split at h
    case h_1 style block hget => exact ⟨style, block, hget, h⟩
    case h_2 => cases h
  · rintro ⟨style, block, hget, hinner⟩
    rw [hget]
    exact hinner

theorem block?_fill_append (around : Surroundings) (inner : Entries) (rest : List String) :
    block? (around.fill inner) (around.path ++ rest) = block? inner rest := by
  induction around with
  | nil => rfl
  | cons frame around ih =>
    rw [Surroundings.path_cons, Surroundings.fill_cons, List.cons_append, block?, frame.get?_fill]
    exact ih

theorem block?_fill (around : Surroundings) (inner : Entries) : block? (around.fill inner) around.path = some inner := by
  have hblock := block?_fill_append around inner []
  rwa [List.append_nil] at hblock

theorem block?_eq_some_iff :
    block? entries path = some inner ↔ ∃ around : Surroundings, around.path = path ∧ entries = around.fill inner := by
  constructor
  · intro h
    induction path generalizing entries with
    | nil =>
      cases h
      exact ⟨[], rfl, rfl⟩
    | cons key rest ih =>
      obtain ⟨style, block, hget, hinner⟩ := block?_cons_eq_some_iff.mp h
      obtain ⟨front, back, rfl, hfirst⟩ := Assoc.get?_eq_some_iff.mp hget
      obtain ⟨around, rfl, rfl⟩ := ih hinner
      exact ⟨⟨front, key, style, back, hfirst⟩ :: around, rfl, rfl⟩
  · rintro ⟨around, rfl, rfl⟩
    exact block?_fill around inner

theorem modifyBlock?_fill (around : Surroundings) (inner : Entries) (f : Entries → Option Entries) :
    modifyBlock? (around.fill inner) around.path f = (f inner).map around.fill := by
  induction around with
  | nil => exact Option.map_id'.symm
  | cons frame around ih =>
    rw [Surroundings.path_cons, Surroundings.fill_cons, Frame.fill, modifyBlock?, Assoc.modify?_split frame.first]
    show Option.map _ (Option.map _ (modifyBlock? (Surroundings.fill around inner) (Surroundings.path around) f)) = _
    rw [ih, Option.map_map, Option.map_map]
    rfl

/-- A change at a path changes the mapping there and keeps its surroundings. -/
theorem modifyBlock?_eq_some_iff {f : Entries → Option Entries} {changed : Entries} :
    modifyBlock? entries path f = some changed ↔ ∃ (around : Surroundings) (inner after : Entries),
      around.path = path ∧ entries = around.fill inner ∧ f inner = some after ∧ changed = around.fill after := by
  constructor
  · intro h
    induction path generalizing entries changed with
    | nil => exact ⟨[], entries, changed, rfl, rfl, h, rfl⟩
    | cons key rest ih =>
      obtain ⟨front, value, back, replaced, rfl, hfirst, hvalue, rfl⟩ := Assoc.modify?_eq_some_iff.mp h
      split at hvalue
      case h_1 style block =>
        obtain ⟨filled, hfilled, rfl⟩ := Option.map_eq_some_iff.mp hvalue
        obtain ⟨around, inner, after, rfl, rfl, hafter, rfl⟩ := ih hfilled
        exact ⟨⟨front, key, style, back, hfirst⟩ :: around, inner, after, rfl, rfl, hafter, rfl⟩
      case h_2 => cases hvalue
  · rintro ⟨around, inner, after, rfl, rfl, hafter, rfl⟩
    rw [modifyBlock?_fill, hafter, Option.map_some]

theorem modifyBlock?_of_block?_eq_none (h : block? entries path = none) (f : Entries → Option Entries) :
    modifyBlock? entries path f = none := by
  by_contra hsome
  obtain ⟨changed, hchanged⟩ := Option.ne_none_iff_exists'.mp hsome
  obtain ⟨around, inner, after, rfl, rfl, -, -⟩ := modifyBlock?_eq_some_iff.mp hchanged
  rw [block?_fill] at h
  cases h

/-- Mappings that a path does not go through keep their keys, the mappings around it among them. -/
theorem keys_block?_fill (houtside : ¬ around.path <+: path) (inner after : Entries) :
    (block? (around.fill inner) path).map Assoc.keys = (block? (around.fill after) path).map Assoc.keys := by
  induction around generalizing path with
  | nil => exact absurd List.nil_prefix houtside
  | cons frame around ih =>
    rw [Surroundings.fill_cons, Surroundings.fill_cons]
    cases path with
    | nil =>
      rw [block?, block?, Option.map_some, Option.map_some, frame.keys_fill, frame.keys_fill]
    | cons key rest =>
      by_cases hkey : key = frame.key
      · subst hkey
        rw [Surroundings.path_cons, List.cons_prefix_cons] at houtside
        rw [block?, block?, frame.get?_fill, frame.get?_fill]
        exact ih fun hrest => houtside ⟨rfl, hrest⟩
      · rw [block?_congr (Frame.get?_fill_of_ne hkey _ _)]

/-! ### Values at a path -/

theorem at?_concat (entries : Entries) (parents : List String) (key : String) :
    entries.at? (parents ++ [key]) = (block? entries parents).bind (Assoc.get? · key) := by
  rw [at?, List.getLast?_concat, List.dropLast_concat]
  rfl

theorem at?_congr {other : Entries} {key otherKey : String} (h : Assoc.get? entries key = Assoc.get? other otherKey)
    (rest : List String) : entries.at? (key :: rest) = other.at? (otherKey :: rest) := by
  rcases List.eq_nil_or_concat rest with rfl | ⟨parents, last, rfl⟩
  · exact (entries.at?_concat [] key).trans (h.trans (other.at?_concat [] otherKey).symm)
  · rw [List.concat_eq_append, ← List.cons_append, ← List.cons_append, at?_concat, at?_concat, block?_congr h]

theorem at?_of_get?_eq_none {key : String} (h : Assoc.get? entries key = none) (rest : List String) :
    entries.at? (key :: rest) = none := by
  rcases List.eq_nil_or_concat rest with rfl | ⟨parents, last, rfl⟩
  · exact (entries.at?_concat [] key).trans h
  · rw [List.concat_eq_append, ← List.cons_append, at?_concat, block?_of_get?_eq_none h, Option.bind_none]

theorem at?_fill_append (around : Surroundings) (inner : Entries) {rest : List String} (hrest : rest ≠ []) :
    (around.fill inner).at? (around.path ++ rest) = inner.at? rest := by
  obtain ⟨parents, last, rfl⟩ := (List.eq_nil_or_concat rest).resolve_left hrest
  rw [List.concat_eq_append, ← List.append_assoc, at?_concat, at?_concat, block?_fill_append]

theorem at?_cons {key : String} {style : Style} {block : Entries} (hget : Assoc.get? entries key = some (.map style block))
    {rest : List String} (hrest : rest ≠ []) : entries.at? (key :: rest) = block.at? rest := by
  obtain ⟨front, back, rfl, hfirst⟩ := Assoc.get?_eq_some_iff.mp hget
  exact at?_fill_append [⟨front, key, style, back, hfirst⟩] block hrest

/-- A path that ends on the way to a mapping reads a mapping around it. -/
theorem exists_at?_fill_upper {upper lower : List String} (hupper : upper ≠ []) (hpath : around.path = upper ++ lower) :
    ∃ (style : Style) (rest : Surroundings), rest.path = lower ∧
      ∀ inner, (around.fill inner).at? upper = some (.map style (rest.fill inner)) := by
  obtain ⟨outer, rest, rfl, rfl, rfl⟩ := List.map_eq_append_iff.mp hpath
  obtain ⟨outer, frame, rfl⟩ := (List.eq_nil_or_concat outer).resolve_left (by rintro rfl; exact hupper rfl)
  refine ⟨frame.style, rest, rfl, fun inner => ?_⟩
  rw [List.concat_eq_append, List.append_assoc, Surroundings.fill_append, List.map_append]
  show Entries.at? (Surroundings.fill outer (frame.fill (Surroundings.fill rest inner)))
    (Surroundings.path outer ++ [frame.key]) = _
  rw [at?_concat, block?_fill]
  exact frame.get?_fill _

/-- A path that turns off before it gets to a mapping reads the same whatever is there. -/
theorem at?_fill_of_apart (hthrough : ¬ around.path <+: path) (habove : ¬ path <+: around.path) (inner after : Entries) :
    (around.fill inner).at? path = (around.fill after).at? path := by
  induction around generalizing path with
  | nil => exact absurd List.nil_prefix hthrough
  | cons frame around ih =>
    cases path with
    | nil => exact absurd List.nil_prefix habove
    | cons key rest =>
      by_cases hkey : key = frame.key
      · subst hkey
        rw [Surroundings.path_cons, List.cons_prefix_cons] at hthrough habove
        have hrest : rest ≠ [] := by
          rintro rfl
          exact habove ⟨rfl, List.nil_prefix⟩
        rw [Surroundings.fill_cons, Surroundings.fill_cons, at?_cons (frame.get?_fill _) hrest,
          at?_cons (frame.get?_fill _) hrest]
        exact ih (fun h => hthrough ⟨rfl, h⟩) fun h => habove ⟨rfl, h⟩
      · exact at?_congr (Frame.get?_fill_of_ne hkey _ _) rest

/-! ### Writing at a path -/

theorem replaceAt?_eq_some_iff {value : Value} {changed : Entries} :
    entries.replaceAt? path value = some changed ↔ ∃ (around : Surroundings) (front : Entries) (key : String)
      (present : Value) (back : Entries), path = around.path ++ [key] ∧ key ∉ Assoc.keys front ∧
      entries = around.fill (front ++ (key, present) :: back) ∧ changed = around.fill (front ++ (key, value) :: back) := by
  rcases List.eq_nil_or_concat path with rfl | ⟨parents, last, rfl⟩
  · simp [replaceAt?]
  rw [List.concat_eq_append, replaceAt?, List.getLast?_concat, List.dropLast_concat]
  constructor
  · intro h
    obtain ⟨around, inner, after, rfl, rfl, hafter, rfl⟩ := modifyBlock?_eq_some_iff.mp h
    obtain ⟨front, present, back, _, rfl, hfirst, ⟨⟩, rfl⟩ := Assoc.modify?_eq_some_iff.mp hafter
    exact ⟨around, front, last, present, back, rfl, hfirst, rfl, rfl⟩
  · rintro ⟨around, front, key, present, back, hpath, hfirst, rfl, rfl⟩
    obtain ⟨rfl, hkey⟩ := List.append_inj' hpath rfl
    cases hkey
    show modifyBlock? _ _ _ = _
    rw [modifyBlock?_fill, Assoc.modify?_split hfirst]
    rfl

theorem insertAt?_eq_some_iff {key : String} {value : Value} {changed : Entries} :
    entries.insertAt? path key value = some changed ↔ path ≠ [] ∧ ∃ (around : Surroundings) (inner : Entries),
      around.path = path ∧ entries = around.fill inner ∧ changed = around.fill (Assoc.put inner key value) := by
  rw [insertAt?]
  cases path with
  | nil => simp
  | cons first rest =>
    rw [List.isEmpty_cons, if_neg Bool.false_ne_true, modifyBlock?_eq_some_iff]
    constructor
    · rintro ⟨around, inner, _, hpath, rfl, ⟨⟩, rfl⟩
      exact ⟨List.cons_ne_nil _ _, around, inner, hpath, rfl, rfl⟩
    · rintro ⟨-, around, inner, hpath, rfl, rfl⟩
      exact ⟨around, inner, _, hpath, rfl, rfl, rfl⟩

end Entries

end ApplianceConfig
