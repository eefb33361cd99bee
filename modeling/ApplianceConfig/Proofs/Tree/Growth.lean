import ApplianceConfig.Tree.Basic

/-!
# Growth of trees

A tree only grows: folders and stamps are added behind those it has, and a stamp is hooked onto a folder at most once. Whatever can be read off a folder or a hooked stamp of the smaller tree is read off the larger one in the same way, names and paths included.
-/

namespace ApplianceConfig.Tree

/-- The larger tree has all that the smaller one has, at the same numbers. -/
structure Grows (before after : Tree) : Prop where
  context : after.context = before.context
  size : before.size ≤ after.size
  folder : ∀ id < before.size, (after.folder id).name = (before.folder id).name ∧
    (after.folder id).index = (before.folder id).index ∧
    (after.folder id).parent = (before.folder id).parent
  slot : ∀ {id : StampId} {slot : Slot}, before.slot? id = some slot →
    ∃ later, after.slot? id = some later ∧ later.stamp = slot.stamp ∧
      ∀ folder, slot.folder = some folder → later.folder = some folder

/-- Stamps are hooked onto folders of the tree only. -/
structure Anchored (tree : Tree) : Prop where
  lt_size : ∀ {id : StampId} {folder : FolderId}, tree.stampFolder? id = some folder →
    folder < tree.size

theorem Grows.refl (tree : Tree) : tree.Grows tree where
  context := rfl
  size := Nat.le_refl _
  folder := fun _ _ => ⟨rfl, rfl, rfl⟩
  slot := fun h => ⟨_, h, rfl, fun _ hfolder => hfolder⟩

theorem Grows.trans {a b c : Tree} (hab : a.Grows b) (hbc : b.Grows c) : a.Grows c where
  context := hbc.context.trans hab.context
  size := Nat.le_trans hab.size hbc.size
  folder := by
    intro id hid
    obtain ⟨hname, hindex, hparent⟩ := hab.folder id hid
    obtain ⟨hname', hindex', hparent'⟩ := hbc.folder id (Nat.lt_of_lt_of_le hid hab.size)
    exact ⟨hname'.trans hname, hindex'.trans hindex, hparent'.trans hparent⟩
  slot := by
    intro id slot hslot
    obtain ⟨later, hlater, hstamp, hfolder⟩ := hab.slot hslot
    obtain ⟨last, hlast, hstamp', hfolder'⟩ := hbc.slot hlater
    exact ⟨last, hlast, hstamp'.trans hstamp, fun f hf => hfolder' f (hfolder f hf)⟩

/-! ### Names and paths -/

theorem names_eq (tree : Tree) (id : FolderId) :
    tree.names id = match (tree.folder id).parent with
      | none => []
      | some p => tree.names p ++ [(tree.folder id).name] := by
  rw [names]
  split <;> split <;> simp_all

theorem partitionOf_eq (tree : Tree) (id : FolderId) :
    tree.partitionOf id = match (tree.folder id).parent with
      | none => id
      | some p => if (tree.folder p).isRoot then id else tree.partitionOf p := by
  rw [partitionOf]
  split <;> split <;> simp_all

theorem partitionOf_le (tree : Tree) (id : FolderId) : tree.partitionOf id ≤ id := by
  induction id using Nat.strongRecOn with
  | ind id ih =>
    rw [partitionOf_eq]
    split
    · exact Nat.le_refl id
    · rename_i p hparent
      have hp := tree.parent_lt_of_folder hparent
      split
      · exact Nat.le_refl id
      · exact Nat.le_trans (ih p hp) (Nat.le_of_lt hp)

section Grows

variable {before after : Tree} (hgrows : before.Grows after)

include hgrows

theorem Grows.isRoot_eq {id : FolderId} (hid : id < before.size) :
    (after.folder id).isRoot = (before.folder id).isRoot := by
  rw [Folder.isRoot, Folder.isRoot, (hgrows.folder id hid).2.2]

theorem Grows.names_eq {id : FolderId} (hid : id < before.size) :
    after.names id = before.names id := by
  induction id using Nat.strongRecOn with
  | ind id ih =>
    obtain ⟨hname, -, hparent⟩ := hgrows.folder id hid
    rw [Tree.names_eq, Tree.names_eq before, hname, hparent]
    split
    · rfl
    · rename_i p hp
      have hlt := before.parent_lt_of_folder hp
      rw [ih p hlt (Nat.lt_trans hlt hid)]

theorem Grows.path_eq {id : FolderId} (hid : id < before.size) : after.path id = before.path id := by
  rw [path, path, key, key, hgrows.isRoot_eq hid, hgrows.names_eq hid]

theorem Grows.partitionOf_eq {id : FolderId} (hid : id < before.size) :
    after.partitionOf id = before.partitionOf id := by
  induction id using Nat.strongRecOn with
  | ind id ih =>
    rw [Tree.partitionOf_eq, Tree.partitionOf_eq before, (hgrows.folder id hid).2.2]
    split
    · rfl
    · rename_i p hp
      have hlt := before.parent_lt_of_folder hp
      have hp := Nat.lt_trans hlt hid
      rw [hgrows.isRoot_eq hp, ih p hlt hp]

theorem Grows.stamp? {id : StampId} {stamp : Stamp} (h : before.stamp? id = some stamp) :
    after.stamp? id = some stamp := by
  obtain ⟨slot, hslot, rfl⟩ := Option.map_eq_some_iff.mp h
  obtain ⟨later, hlater, hstamp, -⟩ := hgrows.slot hslot
  rw [Tree.stamp?, hlater, Option.map_some, hstamp]

theorem Grows.stampFolder? {id : StampId} {folder : FolderId}
    (h : before.stampFolder? id = some folder) : after.stampFolder? id = some folder := by
  obtain ⟨slot, hslot, hfolder⟩ := Option.bind_eq_some_iff.mp h
  obtain ⟨later, hlater, -, hlast⟩ := hgrows.slot hslot
  rw [Tree.stampFolder?, hlater, Option.bind_some, hlast folder hfolder]

end Grows

/-! ### Steps of growth -/

theorem folder_attach (tree : Tree) (folder : FolderId) (id : StampId) (i : FolderId) :
    ∃ content byKind, (tree.attach folder id).folder i = { tree.folder i with content, byKind } := by
  unfold attach
  cases tree.stamp? id with
  | none => exact ⟨_, _, rfl⟩
  | some stamp =>
    simp only [Tree.folder, List.getElem?_modify]
    cases tree.folders[i]? with
    | none => exact ⟨_, _, rfl⟩
    | some f => by_cases hi : folder = i <;> simp only [hi] <;> exact ⟨_, _, rfl⟩

theorem slot?_attach (tree : Tree) (folder : FolderId) (id i : StampId) :
    (tree.attach folder id).slot? i =
      (tree.slot? i).map fun slot => if id = i then { slot with folder := some folder } else slot := by
  unfold attach
  cases hstamp : tree.stamp? id with
  | none =>
    have hid : tree.slot? id = none := Option.map_eq_none_iff.mp hstamp
    cases hslot : tree.slot? i with
    | none => rfl
    | some slot =>
      have hne : id ≠ i := by
        rintro rfl
        rw [hid] at hslot
        cases hslot
      rw [Option.map_some, if_neg hne]
  | some stamp => exact List.getElem?_modify ..

theorem grows_attach {tree : Tree} {folder : FolderId} {id : StampId}
    (hfree : ∀ {other}, tree.stampFolder? id = some other → other = folder) :
    tree.Grows (tree.attach folder id) where
  context := by
    unfold attach
    split <;> rfl
  size := Nat.le_of_eq (tree.size_attach folder id).symm
  folder := by
    intro i hi
    obtain ⟨content, byKind, hfolder⟩ := tree.folder_attach folder id i
    rw [hfolder]
    exact ⟨rfl, rfl, rfl⟩
  slot := by
    intro i slot hslot
    refine ⟨_, by rw [slot?_attach, hslot, Option.map_some], ?_, ?_⟩
    · split <;> rfl
    · intro other hother
      split
      · rename_i heq
        subst heq
        have hhooked : tree.stampFolder? id = some other := by
          rw [stampFolder?, hslot, Option.bind_some, hother]
        rw [hfree hhooked]
      · exact hother

theorem slot?_insert (tree : Tree) (stamp : Stamp) (i : StampId) :
    (tree.insert stamp).2.slot? i =
      if i = tree.slots.length then some { stamp } else tree.slot? i := by
  rw [slot?, insert, List.getElem?_append]
  split
  · rename_i hi
    rw [if_neg (Nat.ne_of_lt hi)]
    rfl
  · rename_i hi
    rcases Nat.lt_or_eq_of_le (Nat.le_of_not_lt hi) with hlt | heq
    · have hnone : tree.slots[i]? = none := List.getElem?_eq_none (Nat.le_of_lt hlt)
      rw [if_neg (Nat.ne_of_gt hlt), slot?, hnone]
      exact List.getElem?_eq_none (Nat.sub_pos_of_lt hlt)
    · rw [if_pos heq.symm, ← heq, Nat.sub_self]
      rfl

theorem slot?_length (tree : Tree) : tree.slot? tree.slots.length = none :=
  List.getElem?_eq_none (Nat.le_refl _)

theorem grows_insert (tree : Tree) (stamp : Stamp) : tree.Grows (tree.insert stamp).2 where
  context := rfl
  size := Nat.le_refl _
  folder := fun _ _ => ⟨rfl, rfl, rfl⟩
  slot := by
    intro i slot hslot
    have hi : i ≠ tree.slots.length := by
      rintro rfl
      rw [slot?_length] at hslot
      cases hslot
    exact ⟨slot, by rw [slot?_insert, if_neg hi, hslot], rfl, fun _ hfolder => hfolder⟩

theorem grows_hookStamp (tree : Tree) (folder : FolderId) (stamp : Stamp) :
    tree.Grows (tree.hookStamp folder stamp).2 := by
  refine (tree.grows_insert stamp).trans (grows_attach ?_)
  intro other hother
  have hslot := tree.slot?_insert stamp tree.slots.length
  rw [if_pos rfl] at hslot
  rw [stampFolder?] at hother
  simp only [insert] at hslot hother
  rw [hslot] at hother
  cases hother

theorem size_grow (tree : Tree) (parent : FolderId) (name : String) (hparent : parent < tree.size) :
    (tree.grow parent name hparent).size = tree.size + 1 := by
  simp [grow, size]

theorem grows_grow (tree : Tree) (parent : FolderId) (name : String) (hparent : parent < tree.size) :
    tree.Grows (tree.grow parent name hparent) where
  context := rfl
  size := by
    rw [size_grow]
    omega
  folder := by
    intro i hi
    have hold : (tree.grow parent name hparent).folders[i]? =
        (tree.folders.modify parent (·.withChild name tree.size))[i]? :=
      List.getElem?_append_left (by rwa [List.length_modify])
    simp only [Tree.folder, hold, List.getElem?_modify]
    cases tree.folders[i]? with
    | none => exact ⟨rfl, rfl, rfl⟩
    | some f => by_cases heq : parent = i <;> simp only [heq] <;> exact ⟨rfl, rfl, rfl⟩
  slot := fun h => ⟨_, h, rfl, fun _ hfolder => hfolder⟩

theorem grows_extend (tree : Tree) (parent : FolderId) (name : String) (hparent : parent < tree.size) :
    tree.Grows (tree.extend parent name hparent) :=
  (tree.grows_grow parent name hparent).trans (grows_hookStamp ..)

theorem stampFolder?_attach {tree : Tree} {folder other : FolderId} {id i : StampId}
    (h : (tree.attach folder id).stampFolder? i = some other) :
    other = folder ∨ tree.stampFolder? i = some other := by
  rw [stampFolder?, slot?_attach] at h
  cases hslot : tree.slot? i with
  | none =>
    rw [hslot] at h
    cases h
  | some slot =>
    rw [hslot, Option.map_some, Option.bind_some] at h
    split at h
    · cases h
      exact .inl rfl
    · refine .inr ?_
      rw [stampFolder?, hslot, Option.bind_some, h]

theorem grows_foldl_attach {folder : FolderId} {ids : List StampId} {tree : Tree}
    (hfree : ∀ id ∈ ids, ∀ other, tree.stampFolder? id = some other → other = folder) :
    tree.Grows (ids.foldl (fun tree id => tree.attach folder id) tree) := by
  induction ids generalizing tree with
  | nil => exact .refl tree
  | cons id ids ih =>
    refine (grows_attach (hfree id List.mem_cons_self _)).trans (ih ?_)
    intro i hi other hother
    rcases stampFolder?_attach hother with hnew | hold
    · exact hnew
    · exact hfree i (List.mem_cons_of_mem id hi) other hold

/-- Stamps that can be hooked are there, and none of them is hooked yet. -/
theorem free_of_hookError? {tree : Tree} {ids : List StampId} (h : tree.hookError? ids = none) :
    ∀ id ∈ ids, (∃ stamp, tree.stamp? id = some stamp) ∧ tree.stampFolder? id = none := by
  intro id hid
  have hnone := List.findSome?_eq_none_iff.mp h id hid
  cases hslot : tree.slot? id with
  | none =>
    rw [hslot] at hnone
    cases hnone
  | some slot =>
    rw [hslot] at hnone
    have hfree : slot.folder = none := Option.map_eq_none_iff.mp hnone
    refine ⟨⟨slot.stamp, by rw [stamp?, hslot]; rfl⟩, ?_⟩
    rw [stampFolder?, hslot, Option.bind_some, hfree]

theorem hook_eq_ok_iff {tree after : Tree} {folder : FolderId} {ids : List StampId} :
    tree.hook folder ids = .ok after ↔ tree.hookError? ids = none ∧
      after = ids.foldl (fun tree id => tree.attach folder id) tree := by
  unfold hook
  cases tree.hookError? ids with
  | some e => exact ⟨nofun, nofun⟩
  | none => exact ⟨fun h => ⟨rfl, (Except.ok.inj h).symm⟩, fun h => congrArg Except.ok h.2.symm⟩

theorem grows_hook {tree after : Tree} {folder : FolderId} {ids : List StampId}
    (h : tree.hook folder ids = .ok after) : tree.Grows after := by
  obtain ⟨herror, rfl⟩ := hook_eq_ok_iff.mp h
  refine grows_foldl_attach fun id hid other hother => ?_
  rw [(free_of_hookError? herror id hid).2] at hother
  cases hother

theorem grows_add {tree after : Tree} {parent child : FolderId} {name : String}
    {hparent : parent < tree.size} (h : tree.add parent name hparent = .ok (child, after)) :
    tree.Grows after := by
  unfold add at h
  split at h
  · cases h
  · cases h
    exact tree.grows_extend parent name hparent

/-! ### Hooks onto folders of the tree -/

theorem anchored_new (context : Context) : (new context).Anchored := ⟨fun h => by cases h⟩

theorem Anchored.attach {tree : Tree} (hanchored : tree.Anchored) {folder : FolderId}
    (hfolder : folder < tree.size) (id : StampId) : (tree.attach folder id).Anchored := by
  refine ⟨fun h => ?_⟩
  rw [size_attach]
  rcases stampFolder?_attach h with rfl | hold
  · exact hfolder
  · exact hanchored.lt_size hold

theorem Anchored.insert {tree : Tree} (hanchored : tree.Anchored) (stamp : Stamp) :
    (tree.insert stamp).2.Anchored := by
  refine ⟨fun h => ?_⟩
  rw [stampFolder?, slot?_insert] at h
  split at h
  · cases h
  · exact hanchored.lt_size h

theorem Anchored.hookStamp {tree : Tree} (hanchored : tree.Anchored) {folder : FolderId}
    (hfolder : folder < tree.size) (stamp : Stamp) : (tree.hookStamp folder stamp).2.Anchored :=
  (hanchored.insert stamp).attach hfolder _

theorem Anchored.grow {tree : Tree} (hanchored : tree.Anchored) {parent : FolderId} (name : String)
    (hparent : parent < tree.size) : (tree.grow parent name hparent).Anchored := by
  refine ⟨fun h => ?_⟩
  rw [size_grow]
  exact Nat.lt_succ_of_lt (hanchored.lt_size h)

theorem Anchored.add {tree after : Tree} (hanchored : tree.Anchored) {parent child : FolderId}
    {name : String} {hparent : parent < tree.size}
    (h : tree.add parent name hparent = .ok (child, after)) : after.Anchored := by
  unfold Tree.add at h
  split at h
  · cases h
  · cases h
    refine (hanchored.grow name hparent).hookStamp ?_ _
    rw [size_grow]
    exact Nat.lt_succ_self _

theorem Anchored.hook {tree after : Tree} (hanchored : tree.Anchored) {folder : FolderId}
    (hfolder : folder < tree.size) {ids : List StampId} (h : tree.hook folder ids = .ok after) :
    after.Anchored := by
  obtain ⟨-, rfl⟩ := hook_eq_ok_iff.mp h
  clear h
  induction ids generalizing tree with
  | nil => exact hanchored
  | cons id ids ih => exact ih (hanchored.attach hfolder id) (by rwa [size_attach])

end ApplianceConfig.Tree
