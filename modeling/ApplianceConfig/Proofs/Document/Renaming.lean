import ApplianceConfig.Proofs.Document.Surroundings
import Mathlib.Data.List.InsertIdx

/-!
# Renaming an entry where it stands

A rename goes down a path to a mapping, takes an entry out of it by its place, and puts it back there under another key. Here these steps are taken one after another on the document, and what was done before a failure stays done. Nothing has been done by then: all that can fail comes before the entry is taken out.

A rename that goes through changes one key and nothing else. The document is the same around that key, with all orders and styles, so it can be renamed back.
-/

namespace ApplianceConfig

namespace Assoc

variable {α : Type} {entries front back : Assoc α} {old new : String}

theorem rekey_split (hfirst : old ∉ keys front) (value : α) (back : Assoc α) (new : String) :
    rekey (front ++ (old, value) :: back) old new = front ++ (new, value) :: back := by
  induction front with
  | nil => rw [List.nil_append, rekey, if_pos rfl, List.nil_append]
  | cons e front ih =>
    obtain ⟨k, v⟩ := e
    obtain ⟨hne, hfront⟩ : old ≠ k ∧ old ∉ keys front := by simpa [keys] using hfirst
    rw [List.cons_append, rekey, if_neg hne.symm, ih hfront, List.cons_append]

theorem rename?_isSome_iff :
    (rename? entries old new).isSome = true ↔ old ∈ keys entries ∧ (new = old ∨ new ∉ keys entries) := by
  rw [← contains_iff, ← contains_iff, rename?]
  by_cases hold : contains entries old <;> by_cases heq : new = old <;> by_cases hnew : contains entries new <;>
    simp [hold, heq, hnew]

/-- A new name is no key in front of the entry that it is given to. -/
theorem not_mem_front {value : α} (hfirst : old ∉ keys front)
    (hnew : new = old ∨ new ∉ keys (front ++ (old, value) :: back)) : new ∉ keys front := by
  rcases hnew with rfl | hnew
  · exact hfirst
  · rw [keys_split, List.mem_append, not_or] at hnew
    exact hnew.1

theorem rename?_split (hfirst : old ∉ keys front) {value : α}
    (hnew : new = old ∨ new ∉ keys (front ++ (old, value) :: back)) :
    rename? (front ++ (old, value) :: back) old new = some (front ++ (new, value) :: back) := by
  have hold : contains (front ++ (old, value) :: back) old = true := by
    rw [contains, get?_split hfirst]
    rfl
  rw [rename?, hold, rekey_split hfirst]
  rcases hnew with rfl | hnew
  · simp
  · rw [contains_of_not_mem_keys hnew]
    have hne : new ≠ old := by
      rintro rfl
      exact hnew (contains_iff.mp hold)
    simp [hne]

theorem rename?_eq_some_iff {renamed : Assoc α} :
    rename? entries old new = some renamed ↔ ∃ front value back, entries = front ++ (old, value) :: back ∧
      old ∉ keys front ∧ (new = old ∨ new ∉ keys entries) ∧ renamed = front ++ (new, value) :: back := by
  constructor
  · intro h
    obtain ⟨hold, hnew⟩ := rename?_isSome_iff.mp (Option.isSome_of_mem h)
    obtain ⟨value, hvalue⟩ := Option.isSome_iff_exists.mp (contains_iff.mpr hold)
    obtain ⟨front, back, rfl, hfirst⟩ := get?_eq_some_iff.mp hvalue
    rw [rename?_split hfirst hnew, Option.some.injEq] at h
    exact ⟨front, value, back, rfl, hfirst, hnew, h.symm⟩
  · rintro ⟨front, value, back, rfl, hfirst, hnew, rfl⟩
    exact rename?_split hfirst hnew

/-! ### Step by step -/

/-- Takes the entry of a key out and puts it back in its place under another key. Tells whether the entry has that key now. -/
def renameByPlace (old new : String) : StateM (Assoc α) Bool := do
  let some place := (← get).findIdx? (·.1 == old) | return false
  if new = old then return true
  if contains (← get) new then return false
  let some (_, value) := (← get)[place]? | return false
  modify (·.eraseIdx place)
  modify (·.insertIdx place (new, value))
  return true

theorem findIdx?_of_not_mem (h : old ∉ keys entries) : entries.findIdx? (·.1 == old) = none := by
  rw [List.findIdx?_eq_none_iff]
  intro e he
  have hne : e.1 ≠ old := fun heq => h (heq ▸ List.mem_map_of_mem he)
  simpa using hne

theorem findIdx?_split (hfirst : old ∉ keys front) (value : α) (back : Assoc α) :
    (front ++ (old, value) :: back).findIdx? (·.1 == old) = some front.length := by
  rw [List.findIdx?_append, findIdx?_of_not_mem hfirst, List.findIdx?_cons]
  simp

/-- The steps either rename the key or leave the entries as they are. -/
theorem run_renameByPlace (entries : Assoc α) (old new : String) :
    (renameByPlace old new).run entries = match rename? entries old new with
      | some renamed => (true, renamed)
      | none => (false, entries) := by
  cases hvalue : get? entries old with
  | none =>
    have hold : contains entries old = false := by rw [contains, hvalue]; rfl
    simp [renameByPlace, rename?, hold, findIdx?_of_not_mem (not_mem_keys_of_contains hold)]
    rfl
  | some value =>
    have hold : contains entries old = true := by rw [contains, hvalue]; rfl
    obtain ⟨front, back, rfl, hfirst⟩ := get?_eq_some_iff.mp hvalue
    have hplace := findIdx?_split hfirst value back
    by_cases heq : new = old
    · simp [renameByPlace, rename?, hold, heq, hplace]
      rfl
    · by_cases hnew : contains (front ++ (old, value) :: back) new
      · simp [renameByPlace, rename?, hold, heq, hplace, hnew]
        rfl
      · have hput : ((front ++ (old, value) :: back).eraseIdx front.length).insertIdx front.length (new, value) =
            front ++ (new, value) :: back := by
          rw [List.insertIdx_eraseIdx_self (by simp)]
          simp
        simp [renameByPlace, rename?, hold, heq, hplace, hnew, rekey_split hfirst, hput]
        rfl

end Assoc

namespace Entries

variable {entries : Entries} {path parents : List String} {old new : String}

/-- Goes down to the mapping at a path, works on it there, and puts back what has become of it. Where the path leads to no mapping nothing is done. -/
def workAt (path : List String) (work : StateM Entries (Option Value)) (entries : Entries) : Option Value × Entries :=
  match path with
  | [] => work.run entries
  | key :: rest =>
    match Assoc.get? entries key with
    | some (.map style inner) =>
      let (answer, after) := workAt rest work inner
      (answer, Assoc.put entries key (.map style after))
    | _ => (none, entries)

/-- Renames the last key of a path step by step. The answer is the value that stands under the new key then. -/
def renameByPlace (entries : Entries) (path : List String) (new : String) : Option Value × Entries :=
  match path.getLast? with
  | none => (none, entries)
  | some last => entries.workAt path.dropLast do
    if ← Assoc.renameByPlace last new then return Assoc.get? (← get) new
    return none

theorem workAt_fill (around : Surroundings) (inner : Entries) (work : StateM Entries (Option Value)) :
    workAt around.path work (around.fill inner) = ((work.run inner).1, around.fill (work.run inner).2) := by
  induction around with
  | nil => rfl
  | cons frame around ih =>
    rw [Surroundings.path_cons, Surroundings.fill_cons, workAt, frame.get?_fill]
    dsimp only
    rw [ih, Frame.fill, Assoc.put_split frame.first]
    rfl

theorem workAt_of_block?_eq_none (h : block? entries path = none) (work : StateM Entries (Option Value)) :
    workAt path work entries = (none, entries) := by
  induction path generalizing entries with
  | nil => cases h
  | cons key rest ih =>
    by_cases hmap : ∃ style inner, Assoc.get? entries key = some (.map style inner)
    · obtain ⟨style, inner, hget⟩ := hmap
      rw [block?, hget] at h
      rw [workAt, hget]
      dsimp only at h ⊢
      obtain ⟨front, back, rfl, hfirst⟩ := Assoc.get?_eq_some_iff.mp hget
      -- the mapping is put back, but as it was
      rw [ih h, Assoc.put_split hfirst]
    · rw [workAt]
      split
      case h_1 style inner hget => exact absurd ⟨style, inner, hget⟩ hmap
      case h_2 => rfl

theorem renameAt?_concat (entries : Entries) (parents : List String) (old new : String) :
    entries.renameAt? (parents ++ [old]) new = modifyBlock? entries parents (Assoc.rename? · old new) := by
  rw [renameAt?, List.getLast?_concat, List.dropLast_concat]
  rfl

/-- The steps either rename the entry, and answer with its value, or leave the entries as they are. -/
theorem renameByPlace_eq (entries : Entries) (path : List String) (new : String) :
    entries.renameByPlace path new = match entries.renameAt? path new with
      | some renamed => (entries.at? path, renamed)
      | none => (none, entries) := by
  rcases List.eq_nil_or_concat path with rfl | ⟨parents, old, rfl⟩
  · rfl
  rw [List.concat_eq_append, renameByPlace, List.getLast?_concat, List.dropLast_concat, renameAt?_concat, at?_concat]
  dsimp only
  cases hblock : block? entries parents with
  | none =>
    rw [workAt_of_block?_eq_none hblock, modifyBlock?_of_block?_eq_none hblock]
  | some inner =>
    obtain ⟨around, rfl, rfl⟩ := block?_eq_some_iff.mp hblock
    rw [workAt_fill, modifyBlock?_fill, StateT.run_bind, Assoc.run_renameByPlace]
    cases hrename : Assoc.rename? inner old new with
    | none => rfl
    | some renamed =>
      obtain ⟨front, value, back, rfl, hfirst, hnew, rfl⟩ := Assoc.rename?_eq_some_iff.mp hrename
      show (Assoc.get? (front ++ (new, value) :: back) new, around.fill (front ++ (new, value) :: back)) = _
      rw [Assoc.get?_split (Assoc.not_mem_front hfirst hnew), Option.bind_some, Assoc.get?_split hfirst]
      rfl

end Entries

/-! ### What a rename changes -/

namespace Document

/-- Renames an entry step by step. The answer is its value, if there was something to rename. -/
def renameByPlace (doc : Document) (path : List String) (new : String) : Option Value × Document :=
  let (answer, entries) := doc.entries.renameByPlace path new
  (answer, { doc with entries })

theorem renameByPlace_eq (doc : Document) (path : List String) (new : String) :
    doc.renameByPlace path new = match doc.renameAt? path new with
      | some renamed => (doc.at? path, renamed)
      | none => (none, doc) := by
  rw [renameByPlace, Entries.renameByPlace_eq, renameAt?]
  cases doc.entries.renameAt? path new <;> rfl

/-- The second document is the first one with an entry under another key. Keys lead to a mapping, and there the old key of the entry has been replaced by the new one. -/
structure Renamed (parents : List String) (old new : String) (before after : Document) : Prop where
  style_eq : after.style = before.style
  /-- The entry has its place and its value, and all around it is the same: other entries, their order, and styles. -/
  in_place : ∃ (around : Surroundings) (front : Entries) (value : Value) (back : Entries), around.path = parents ∧
    before.entries = around.fill (front ++ (old, value) :: back) ∧
    after.entries = around.fill (front ++ (new, value) :: back)
  found : ∀ rest, after.at? (parents ++ new :: rest) = before.at? (parents ++ old :: rest)
  gone : old ≠ new → ∀ rest, after.at? (parents ++ old :: rest) = none
  /-- Paths that do not go through one of the two keys read the same, unless they end at the mapping or at one around it. -/
  elsewhere : ∀ path, ¬ parents ++ [old] <+: path → ¬ parents ++ [new] <+: path → path = [] ∨ ¬ path <+: parents →
    after.at? path = before.at? path
  /-- Paths that end at the mapping or at one around it read this mapping as it was, with the entry in it renamed. -/
  above : ∀ upper lower, upper ≠ [] → upper ++ lower = parents → ∃ style entries renamed,
    before.at? upper = some (.map style entries) ∧ after.at? upper = some (.map style renamed) ∧
    Entries.renameAt? entries (lower ++ [old]) new = some renamed
  undone : after.renameAt? (parents ++ [new]) old = some before

theorem renameAt?_concat_eq_some_iff {doc renamed : Document} {parents : List String} {old new : String} :
    doc.renameAt? (parents ++ [old]) new = some renamed ↔ ∃ (around : Surroundings) (front : Entries) (value : Value)
      (back : Entries), around.path = parents ∧ doc.entries = around.fill (front ++ (old, value) :: back) ∧
      old ∉ Assoc.keys front ∧ (new = old ∨ new ∉ Assoc.keys (front ++ (old, value) :: back)) ∧
      renamed = { doc with entries := around.fill (front ++ (new, value) :: back) } := by
  rw [renameAt?, Entries.renameAt?_concat, Option.map_eq_some_iff]
  constructor
  · rintro ⟨entries, hentries, rfl⟩
    obtain ⟨around, inner, after, hpath, hdoc, hafter, rfl⟩ := Entries.modifyBlock?_eq_some_iff.mp hentries
    obtain ⟨front, value, back, rfl, hfirst, hnew, rfl⟩ := Assoc.rename?_eq_some_iff.mp hafter
    exact ⟨around, front, value, back, hpath, hdoc, hfirst, hnew, rfl⟩
  · rintro ⟨around, front, value, back, rfl, hdoc, hfirst, hnew, rfl⟩
    rw [hdoc, Entries.modifyBlock?_fill, Assoc.rename?_split hfirst hnew]
    exact ⟨_, rfl, rfl⟩

/-- A rename goes through exactly if its path leads through mappings to a key that is there, and the new name is this key or none of the others beside it. -/
theorem renameAt?_isSome_iff {doc : Document} {path : List String} {new : String} :
    (doc.renameAt? path new).isSome = true ↔ ∃ parents old inner, path = parents ++ [old] ∧
      doc.entries.block? parents = some inner ∧ old ∈ Assoc.keys inner ∧ (new = old ∨ new ∉ Assoc.keys inner) := by
  constructor
  · intro h
    obtain ⟨renamed, hrenamed⟩ := Option.isSome_iff_exists.mp h
    rcases List.eq_nil_or_concat path with rfl | ⟨parents, old, rfl⟩
    · cases hrenamed
    rw [List.concat_eq_append] at hrenamed ⊢
    obtain ⟨around, front, value, back, rfl, hdoc, -, hnew, -⟩ := renameAt?_concat_eq_some_iff.mp hrenamed
    refine ⟨around.path, old, front ++ (old, value) :: back, rfl, ?_, by simp [Assoc.keys], hnew⟩
    rw [hdoc, Entries.block?_fill]
  · rintro ⟨parents, old, inner, rfl, hblock, hold, hnew⟩
    obtain ⟨around, rfl, hdoc⟩ := Entries.block?_eq_some_iff.mp hblock
    obtain ⟨value, hvalue⟩ := Option.isSome_iff_exists.mp (Assoc.contains_iff.mpr hold)
    obtain ⟨front, back, rfl, hfirst⟩ := Assoc.get?_eq_some_iff.mp hvalue
    exact Option.isSome_of_mem
      (renameAt?_concat_eq_some_iff.mpr ⟨around, front, value, back, rfl, hdoc, hfirst, hnew, rfl⟩)

theorem renamed_of_renameAt? {doc renamed : Document} (hdistinct : doc.distinct = true) {parents : List String}
    {old new : String} (h : doc.renameAt? (parents ++ [old]) new = some renamed) :
    Renamed parents old new doc renamed := by
  obtain ⟨around, front, value, back, rfl, hdoc, hfirst, hnew, rfl⟩ := renameAt?_concat_eq_some_iff.mp h
  have hfront : new ∉ Assoc.keys front := Assoc.not_mem_front hfirst hnew
  have hold : old ∉ Assoc.keys (front ++ back) := by
    rw [distinct, hdoc] at hdistinct
    exact (distinctEntries_split.mp (Surroundings.distinctEntries_fill hdistinct).1).1
  refine ⟨rfl, ⟨around, front, value, back, rfl, hdoc, rfl⟩, ?found, ?gone, ?elsewhere, ?above, ?undone⟩
  case found =>
    intro rest
    rw [at?, at?, hdoc, Entries.at?_fill_append _ _ (List.cons_ne_nil _ _),
      Entries.at?_fill_append _ _ (List.cons_ne_nil _ _)]
    exact Entries.at?_congr ((Assoc.get?_split hfront value back).trans (Assoc.get?_split hfirst value back).symm) rest
  case gone =>
    intro hne rest
    rw [at?, Entries.at?_fill_append _ _ (List.cons_ne_nil _ _)]
    refine Entries.at?_of_get?_eq_none ?_ rest
    rw [Assoc.get?_split_of_ne hne]
    exact Assoc.get?_eq_none_iff.mpr hold
  case elsewhere =>
    rintro path hpath hpath' (rfl | habove)
    · rfl
    rw [at?, at?, hdoc]
    by_cases hthrough : around.path <+: path
    · obtain ⟨rest, rfl⟩ := hthrough
      rw [List.prefix_append_right_inj] at hpath hpath'
      cases rest with
      | nil =>
        rw [List.append_nil] at habove
        exact absurd (List.prefix_refl _) habove
      | cons key rest =>
        have hne : key ≠ old := by
          rintro rfl
          exact hpath (singleton_prefix_cons_iff.mpr rfl)
        have hne' : key ≠ new := by
          rintro rfl
          exact hpath' (singleton_prefix_cons_iff.mpr rfl)
        rw [Entries.at?_fill_append _ _ (List.cons_ne_nil _ _), Entries.at?_fill_append _ _ (List.cons_ne_nil _ _)]
        refine Entries.at?_congr ?_ rest
        rw [Assoc.get?_split_of_ne hne', Assoc.get?_split_of_ne hne]
    · exact Entries.at?_fill_of_apart hthrough habove _ _
  case above =>
    rintro upper lower hupper hpath
    obtain ⟨style, rest, rfl, hread⟩ := Entries.exists_at?_fill_upper hupper hpath.symm
    refine ⟨style, rest.fill (front ++ (old, value) :: back), _, ?_, hread _, ?_⟩
    · rw [at?, hdoc, hread]
    · rw [Entries.renameAt?_concat, Entries.modifyBlock?_fill, Assoc.rename?_split hfirst hnew, Option.map_some]
  case undone =>
    refine renameAt?_concat_eq_some_iff.mpr ⟨around, front, value, back, rfl, rfl, hfront, ?_, by rw [← hdoc]⟩
    rw [or_iff_not_imp_left]
    intro hne
    rw [Assoc.keys_append, List.mem_append, not_or] at hold
    rw [Assoc.keys_split, List.mem_append, List.mem_cons, not_or, not_or]
    exact ⟨hold.1, hne, hold.2⟩

/-- A rename goes through exactly if its path leads through mappings to a key that is there, and the new name is this key or none of the others beside it. Taken step by step it changes all or nothing, and answers with the value of the entry. What it changes is one key, and renaming that back restores the document. -/
theorem renameAt?_inPlace {doc : Document} (hdistinct : doc.distinct = true) (path : List String) (new : String) :
    ((doc.renameAt? path new).isSome = true ↔ ∃ parents old inner, path = parents ++ [old] ∧
      doc.entries.block? parents = some inner ∧ old ∈ Assoc.keys inner ∧ (new = old ∨ new ∉ Assoc.keys inner)) ∧
    (doc.renameAt? path new = none → doc.renameByPlace path new = (none, doc)) ∧
    ∀ renamed, doc.renameAt? path new = some renamed → ∃ parents old value, path = parents ++ [old] ∧
      doc.at? path = some value ∧ doc.renameByPlace path new = (some value, renamed) ∧
      Renamed parents old new doc renamed := by
  refine ⟨renameAt?_isSome_iff, fun hnone => ?_, fun renamed hrenamed => ?_⟩
  · rw [renameByPlace_eq, hnone]
  · obtain ⟨parents, old, inner, rfl, hblock, hold, -⟩ := renameAt?_isSome_iff.mp (Option.isSome_of_mem hrenamed)
    obtain ⟨value, hvalue⟩ := Option.isSome_iff_exists.mp (Assoc.contains_iff.mpr hold)
    have hread : doc.at? (parents ++ [old]) = some value := by
      rw [at?, Entries.at?_concat, hblock, Option.bind_some, hvalue]
    refine ⟨parents, old, value, rfl, hread, ?_, renamed_of_renameAt? hdistinct hrenamed⟩
    rw [renameByPlace_eq, hrenamed, hread]

/-- An object two levels down, which can be given a new name but not that of an object beside it. -/
theorem renameAt?_inPlace_secondNode :
    let nodes (key : String) : Entries :=
      [("mail", .toggle), (key, .block [("address", .text "10.0.0.1")]), ("proxy", .block [])]
    let doc (key : String) : Document := { entries := [("sys", .map .bare [("ntp", .absent)]),
      ("ltm", .map .chained [("pool", .block []), ("node", .block (nodes key))]), ("cli", .bool true)] }
    (doc "$key").distinct = true ∧ (doc "$key").renameAt? ["ltm", "node", "$key"] "web" = some (doc "web") ∧
      (doc "$key").renameByPlace ["ltm", "node", "$key"] "web" = (some (.block [("address", .text "10.0.0.1")]), doc "web") ∧
      Renamed ["ltm", "node"] "$key" "web" (doc "$key") (doc "web") ∧
      (doc "$key").renameAt? ["ltm", "node", "$key"] "proxy" = none ∧
      (doc "$key").renameByPlace ["ltm", "node", "$key"] "proxy" = (none, doc "$key") := by
  intro nodes doc
  have hdistinct : (doc "$key").distinct = true := by decide
  have hrenamed : (doc "$key").renameAt? ["ltm", "node", "$key"] "web" = some (doc "web") := rfl
  have htaken : (doc "$key").renameAt? ["ltm", "node", "$key"] "proxy" = none := rfl
  obtain ⟨-, -, hsteps⟩ := renameAt?_inPlace hdistinct ["ltm", "node", "$key"] "web"
  obtain ⟨-, hrefused, -⟩ := renameAt?_inPlace hdistinct ["ltm", "node", "$key"] "proxy"
  obtain ⟨parents, old, value, hpath, hvalue, hdone, hchanged⟩ := hsteps _ hrenamed
  obtain ⟨rfl, hold⟩ := List.append_inj' (show ["ltm", "node"] ++ ["$key"] = parents ++ [old] from hpath) rfl
  cases hold
  cases hvalue
  exact ⟨hdistinct, hrenamed, hdone, hchanged, htaken, hrefused htaken⟩

end Document

end ApplianceConfig
