import ApplianceConfig.Proofs.Tree.Growth
import ApplianceConfig.Tree.Walk

/-!
# Trees are well formed

A tree says most things twice: a folder names its parent and is listed by it, a hooked stamp names its folder and stands in the folder's content, and the content is kept a second time by kinds. Each operation that grows a tree changes both sides alike, so they agree in every tree that can be made.
-/

namespace ApplianceConfig.Tree

/-- Parents and children agree, and the root is the only folder without a parent. -/
structure Linked (tree : Tree) : Prop where
  root_lt_size : root < tree.size
  parent_eq_none_iff : ∀ id < tree.size, (tree.folder id).parent = none ↔ id = root
  /-- A folder's parent has a smaller number, and lists the folder at its index and under its name. -/
  listed : ∀ {id parent}, (tree.folder id).parent = some parent →
    parent < id ∧ (tree.folder parent).children[(tree.folder id).index]? = some ((tree.folder id).name, id)
  names_nodup : ∀ id, (Assoc.keys (tree.folder id).children).Nodup
  childIds_nodup : ∀ id, (tree.folder id).childIds.Nodup
  parent_of_child : ∀ {id child}, child ∈ (tree.folder id).childIds → (tree.folder child).parent = some id

/-- The contents of folders agree with the folders that stamps are hooked onto, and with the contents by kind. -/
structure Filed (tree : Tree) : Prop where
  mem_content_iff : ∀ folder id, id ∈ (tree.folder folder).content ↔ tree.stampFolder? id = some folder
  ofKind_eq : ∀ folder kind, (tree.folder folder).ofKind kind =
    (tree.folder folder).content.filter fun id => (tree.stamp? id).map Stamp.kind = some kind

/-- The content of a folder starts with its marker: that of a partition right below the root, that of a folder further down. -/
def StartsMarked (tree : Tree) (id : FolderId) : Prop :=
  ∀ parent, (tree.folder id).parent = some parent →
    ∃ first rest, (tree.folder id).content = first :: rest ∧
      tree.stamp? first = some (if parent = root then .partition {} else .folder)

/-- All that a tree says twice agrees, and each folder has its marker. -/
structure WellFormed (tree : Tree) : Prop extends tree.Linked, tree.Filed where
  marked : ∀ id, tree.StartsMarked id

/-! ### What operations do to folders and stamps -/

theorem folder_of_size_le {tree : Tree} {id : FolderId} (h : tree.size ≤ id) :
    tree.folder id = { name := "", index := 0, parent := none } := by
  rw [folder, List.getElem?_eq_none h]
  rfl

theorem lt_size_of_mem_content {tree : Tree} {folder : FolderId} {id : StampId}
    (h : id ∈ (tree.folder folder).content) : folder < tree.size := by
  refine Nat.lt_of_not_le fun hsize => ?_
  rw [folder_of_size_le hsize] at h
  cases h

theorem lt_size_of_parent {tree : Tree} {id parent : FolderId}
    (h : (tree.folder id).parent = some parent) : id < tree.size := by
  refine Nat.lt_of_not_le fun hsize => ?_
  rw [folder_of_size_le hsize] at h
  cases h

theorem folder_attach_eq {tree : Tree} {folder : FolderId} {id : StampId} {stamp : Stamp}
    (hstamp : tree.stamp? id = some stamp) (hfolder : folder < tree.size) (i : FolderId) :
    (tree.attach folder id).folder i =
      if i = folder then (tree.folder i).hooked stamp.kind id else tree.folder i := by
  unfold attach
  simp only [hstamp, Tree.folder, List.getElem?_modify]
  by_cases hi : i = folder
  · subst hi
    rw [List.getElem?_eq_getElem hfolder]
    simp
  · cases tree.folders[i]? <;> simp [hi, Ne.symm hi]

theorem content_attach {tree : Tree} {folder : FolderId} {id : StampId} {stamp : Stamp}
    (hstamp : tree.stamp? id = some stamp) (hfolder : folder < tree.size) (i : FolderId) :
    ((tree.attach folder id).folder i).content =
      (tree.folder i).content ++ if i = folder then [id] else [] := by
  rw [folder_attach_eq hstamp hfolder]
  split
  · rfl
  · exact (List.append_nil _).symm

@[simp] theorem stamp?_attach (tree : Tree) (folder : FolderId) (id i : StampId) :
    (tree.attach folder id).stamp? i = tree.stamp? i := by
  rw [stamp?, slot?_attach, stamp?]
  cases tree.slot? i with
  | none => rfl
  | some slot => by_cases hi : id = i <;> simp [hi]

theorem stampFolder?_attach_eq {tree : Tree} {folder : FolderId} {id : StampId} {stamp : Stamp}
    (hstamp : tree.stamp? id = some stamp) (i : StampId) :
    (tree.attach folder id).stampFolder? i = if id = i then some folder else tree.stampFolder? i := by
  rw [stampFolder?, slot?_attach, stampFolder?]
  by_cases hi : id = i
  · subst hi
    obtain ⟨slot, hslot, -⟩ := Option.map_eq_some_iff.mp hstamp
    simp [hslot]
  · cases tree.slot? i <;> simp [hi]

theorem stamp?_insert (tree : Tree) (stamp : Stamp) (i : StampId) :
    (tree.insert stamp).2.stamp? i = if i = tree.slots.length then some stamp else tree.stamp? i := by
  rw [stamp?, slot?_insert]
  split <;> rfl

theorem stampFolder?_insert (tree : Tree) (stamp : Stamp) (i : StampId) :
    (tree.insert stamp).2.stampFolder? i = tree.stampFolder? i := by
  rw [stampFolder?, slot?_insert]
  split
  · rename_i hi
    rw [hi, stampFolder?, slot?_length]
    rfl
  · rfl

theorem folder_insert (tree : Tree) (stamp : Stamp) (i : FolderId) :
    (tree.insert stamp).2.folder i = tree.folder i := rfl

theorem folder_grow (tree : Tree) (parent : FolderId) (name : String) (hparent : parent < tree.size)
    (i : FolderId) :
    (tree.grow parent name hparent).folder i =
      if i = tree.size then
        { name, index := (tree.folder parent).children.length, parent := some parent }
      else if i = parent then (tree.folder i).withChild name tree.size else tree.folder i := by
  simp only [grow, Tree.folder, List.getElem?_append, List.length_modify, List.getElem?_modify]
  rcases Nat.lt_trichotomy i tree.size with hlt | rfl | hgt
  · have hfolder : i < tree.folders.length := hlt
    rw [if_pos hfolder, if_neg (Nat.ne_of_lt hlt), List.getElem?_eq_getElem hfolder]
    by_cases hi : i = parent
    · simp [hi]
    · simp [hi, Ne.symm hi]
  · have hself : ¬ tree.size < tree.folders.length := Nat.lt_irrefl _
    rw [if_neg hself, if_pos rfl, size, Nat.sub_self]
    rfl
  · have hfolder : ¬ i < tree.folders.length := Nat.not_lt_of_gt hgt
    have hbehind : 0 < i - tree.folders.length := Nat.sub_pos_of_lt hgt
    have hi : i ≠ parent := Nat.ne_of_gt (Nat.lt_trans hparent hgt)
    rw [if_neg hfolder, if_neg (Nat.ne_of_gt hgt), if_neg hi, List.getElem?_eq_none hbehind,
      List.getElem?_eq_none (Nat.le_of_lt hgt)]

/-! ### Links -/

/-- Links stay as long as no folder's name, index, parent or children change. -/
theorem Linked.of_same {tree after : Tree} (h : tree.Linked) (hsize : after.size = tree.size)
    (hname : ∀ id, (after.folder id).name = (tree.folder id).name)
    (hindex : ∀ id, (after.folder id).index = (tree.folder id).index)
    (hparent : ∀ id, (after.folder id).parent = (tree.folder id).parent)
    (hchildren : ∀ id, (after.folder id).children = (tree.folder id).children) : after.Linked where
  root_lt_size := by
    rw [hsize]
    exact h.root_lt_size
  parent_eq_none_iff := by
    intro id hid
    rw [hparent]
    exact h.parent_eq_none_iff id (hsize ▸ hid)
  listed := by
    intro id parent hid
    rw [hparent] at hid
    rw [hchildren, hindex, hname]
    exact h.listed hid
  names_nodup := by
    intro id
    rw [hchildren]
    exact h.names_nodup id
  childIds_nodup := by
    intro id
    rw [Folder.childIds, hchildren]
    exact h.childIds_nodup id
  parent_of_child := by
    intro id child hchild
    rw [Folder.childIds, hchildren] at hchild
    rw [hparent]
    exact h.parent_of_child hchild

theorem Linked.attach {tree : Tree} (h : tree.Linked) (folder : FolderId) (id : StampId) :
    (tree.attach folder id).Linked := by
  have hsame (i : FolderId) := tree.folder_attach folder id i
  refine h.of_same (tree.size_attach folder id) ?_ ?_ ?_ ?_ <;>
  · intro i
    obtain ⟨content, byKind, hfolder⟩ := hsame i
    rw [hfolder]

theorem Linked.grow {tree : Tree} (h : tree.Linked) {parent : FolderId} {name : String}
    (hparent : parent < tree.size) (hname : name ∉ Assoc.keys (tree.folder parent).children) :
    (tree.grow parent name hparent).Linked where
  root_lt_size := by
    rw [size_grow]
    exact Nat.lt_succ_of_lt h.root_lt_size
  parent_eq_none_iff := by
    intro id hid
    rw [folder_grow]
    by_cases hnew : id = tree.size
    · rw [if_pos hnew, hnew]
      have hroot : tree.size ≠ root := Nat.ne_of_gt h.root_lt_size
      simp [hroot]
    · have hold : id < tree.size := by
        rw [size_grow] at hid
        omega
      rw [if_neg hnew]
      split <;> exact h.parent_eq_none_iff id hold
  listed := by
    intro id p hid
    rw [folder_grow] at hid
    by_cases hnew : id = tree.size
    · rw [if_pos hnew] at hid
      cases hid
      rw [folder_grow, folder_grow, if_pos hnew, if_neg (Nat.ne_of_lt hparent), if_pos rfl, hnew]
      exact ⟨hparent, by simp [Folder.withChild]⟩
    · rw [if_neg hnew] at hid
      have hold : (tree.folder id).parent = some p := by
        revert hid
        split <;> exact fun hid => hid
      obtain ⟨hlt, hentry⟩ := h.listed hold
      have hp : p ≠ tree.size := Nat.ne_of_lt (Nat.lt_trans hlt (lt_size_of_parent hold))
      have hlinks : ((tree.grow parent name hparent).folder id).index = (tree.folder id).index ∧
          ((tree.grow parent name hparent).folder id).name = (tree.folder id).name := by
        rw [folder_grow, if_neg hnew]
        split <;> exact ⟨rfl, rfl⟩
      refine ⟨hlt, ?_⟩
      rw [hlinks.1, hlinks.2, folder_grow, if_neg hp]
      split
      · exact List.getElem?_append_left (List.getElem?_eq_some_iff.mp hentry).1 ▸ hentry
      · exact hentry
  names_nodup := by
    intro id
    rw [folder_grow]
    split
    · exact List.nodup_nil
    · split
      · rename_i hid
        subst hid
        simp only [Folder.withChild, Assoc.keys, List.map_append, List.map_cons, List.map_nil]
        refine List.nodup_append.mpr ⟨h.names_nodup id, by simp, ?_⟩
        rintro other hother _ hsingle rfl
        exact hname (List.mem_singleton.mp hsingle ▸ hother)
      · exact h.names_nodup id
  childIds_nodup := by
    intro id
    rw [folder_grow]
    split
    · exact List.nodup_nil
    · split
      · simp only [Folder.withChild, Folder.childIds, List.map_append, List.map_cons, List.map_nil]
        refine List.nodup_append.mpr ⟨h.childIds_nodup id, by simp, ?_⟩
        rintro other hother _ hsingle rfl
        have hsize := (tree.child_gt_of_folder hother).2
        exact Nat.ne_of_lt hsize (List.mem_singleton.mp hsingle)
      · exact h.childIds_nodup id
  parent_of_child := by
    intro id child hchild
    rw [folder_grow] at hchild
    have hcases : child ∈ (tree.folder id).childIds ∨ id = parent ∧ child = tree.size := by
      revert hchild
      split
      · exact fun hnone => absurd hnone List.not_mem_nil
      · split
        · rename_i hid
          simp only [Folder.withChild, Folder.childIds, List.map_append, List.map_cons, List.map_nil,
            List.mem_append, List.mem_singleton]
          exact fun hchild => hchild.imp_right fun hnew => ⟨hid, hnew⟩
        · exact .inl
    rw [folder_grow]
    rcases hcases with hold | ⟨rfl, rfl⟩
    · rw [if_neg (Nat.ne_of_lt (tree.child_gt_of_folder hold).2)]
      split <;> exact h.parent_of_child hold
    · rw [if_pos rfl]

/-! ### Contents -/

theorem lookup_byKind_cons (k other : Kind) (ids : List StampId) (rest : List (Kind × List StampId)) :
    ((other, ids) :: rest).lookup k = if k = other then some ids else rest.lookup k := by
  rw [List.lookup_cons]
  by_cases hk : k = other
  · simp [hk]
  · rw [beq_eq_false_iff_ne.mpr hk, if_neg hk]

theorem lookup_sortIn (kind : Kind) (id : StampId) (byKind : List (Kind × List StampId)) (k : Kind) :
    ((Folder.sortIn kind id byKind).lookup k).getD [] =
      (byKind.lookup k).getD [] ++ if k = kind then [id] else [] := by
  induction byKind with
  | nil => by_cases hk : k = kind <;> simp [Folder.sortIn, lookup_byKind_cons, hk]
  | cons entry rest ih =>
    obtain ⟨other, ids⟩ := entry
    rw [Folder.sortIn]
    by_cases hother : other = kind
    · subst hother
      by_cases hk : k = other <;> simp [lookup_byKind_cons, hk]
    · rw [if_neg hother]
      by_cases hk : k = other
      · simp [hk, hother]
      · simpa [lookup_byKind_cons, hk] using ih

theorem ofKind_hooked (folder : Folder) (kind : Kind) (id : StampId) (k : Kind) :
    (folder.hooked kind id).ofKind k = folder.ofKind k ++ if k = kind then [id] else [] :=
  lookup_sortIn kind id folder.byKind k

theorem Filed.attach {tree : Tree} (h : tree.Filed) {folder : FolderId} {id : StampId} {stamp : Stamp}
    (hstamp : tree.stamp? id = some stamp) (hfolder : folder < tree.size)
    (hfree : ∀ other, tree.stampFolder? id = some other → other = folder) :
    (tree.attach folder id).Filed where
  mem_content_iff := by
    intro f i
    rw [folder_attach_eq hstamp hfolder, stampFolder?_attach_eq hstamp]
    by_cases hf : f = folder
    · subst hf
      rw [if_pos rfl]
      by_cases hi : id = i
      · simp [Folder.hooked, hi]
      · simp [Folder.hooked, hi, Ne.symm hi, h.mem_content_iff]
    · rw [if_neg hf, h.mem_content_iff]
      by_cases hi : id = i
      · subst hi
        rw [if_pos rfl]
        constructor
        · intro hother
          exact absurd (hfree f hother) hf
        · intro hsame
          exact absurd (Option.some.inj hsame).symm hf
      · rw [if_neg hi]
  ofKind_eq := by
    intro f kind
    rw [folder_attach_eq hstamp hfolder]
    simp only [stamp?_attach]
    by_cases hf : f = folder
    · subst hf
      have hlast : ([id].filter fun i => (tree.stamp? i).map Stamp.kind = some kind) =
          if kind = stamp.kind then [id] else [] := by
        by_cases hkind : kind = stamp.kind
        · simp [hstamp, hkind]
        · simp [hstamp, hkind, Ne.symm hkind]
      rw [if_pos rfl, ofKind_hooked, h.ofKind_eq, Folder.hooked, List.filter_append, hlast]
    · rw [if_neg hf]
      exact h.ofKind_eq f kind

theorem Filed.lt_length {tree : Tree} (h : tree.Filed) {folder : FolderId} {id : StampId}
    (hid : id ∈ (tree.folder folder).content) : id < tree.slots.length := by
  have hhooked := (h.mem_content_iff folder id).mp hid
  obtain ⟨slot, hslot, -⟩ := Option.bind_eq_some_iff.mp hhooked
  exact (List.getElem?_eq_some_iff.mp hslot).1

theorem Filed.insert {tree : Tree} (h : tree.Filed) (stamp : Stamp) : (tree.insert stamp).2.Filed where
  mem_content_iff := by
    intro folder id
    rw [folder_insert, stampFolder?_insert]
    exact h.mem_content_iff folder id
  ofKind_eq := by
    intro folder kind
    rw [folder_insert, h.ofKind_eq]
    refine List.filter_congr fun id hid => ?_
    rw [stamp?_insert, if_neg (Nat.ne_of_lt (h.lt_length hid))]

/-- A new folder is empty, and all others hold what they held. -/
theorem content_grow (tree : Tree) (parent : FolderId) (name : String) (hparent : parent < tree.size) (id : FolderId) :
    ((tree.grow parent name hparent).folder id).content = (tree.folder id).content ∧
      ((tree.grow parent name hparent).folder id).byKind = (tree.folder id).byKind := by
  rw [folder_grow]
  by_cases hnew : id = tree.size
  · rw [if_pos hnew, hnew, folder_of_size_le (Nat.le_refl _)]
    exact ⟨rfl, rfl⟩
  · rw [if_neg hnew]
    split <;> exact ⟨rfl, rfl⟩

theorem Filed.grow {tree : Tree} (h : tree.Filed) {parent : FolderId} (name : String)
    (hparent : parent < tree.size) : (tree.grow parent name hparent).Filed := by
  have hcontent (id : FolderId) := tree.content_grow parent name hparent id
  constructor
  · intro folder id
    rw [(hcontent folder).1]
    exact h.mem_content_iff folder id
  · intro folder kind
    rw [Folder.ofKind, (hcontent folder).1, (hcontent folder).2]
    exact h.ofKind_eq folder kind

/-! ### Markers -/

/-- A folder that starts with its marker does so in every tree that grew out of this one and only added to its content. -/
theorem StartsMarked.of_grows {tree after : Tree} {id : FolderId} (h : tree.StartsMarked id)
    (hgrows : tree.Grows after) (hparent : (after.folder id).parent = (tree.folder id).parent)
    (hcontent : ∃ more, (after.folder id).content = (tree.folder id).content ++ more) :
    after.StartsMarked id := by
  intro parent hid
  rw [hparent] at hid
  obtain ⟨first, rest, hfirst, hstamp⟩ := h parent hid
  obtain ⟨more, hmore⟩ := hcontent
  refine ⟨first, rest ++ more, ?_, hgrows.stamp? hstamp⟩
  rw [hmore, hfirst, List.cons_append]

/-! ### Operations -/

theorem WellFormed.attach {tree : Tree} (h : tree.WellFormed) {folder : FolderId} {id : StampId}
    {stamp : Stamp} (hstamp : tree.stamp? id = some stamp) (hfolder : folder < tree.size)
    (hfree : ∀ other, tree.stampFolder? id = some other → other = folder) :
    (tree.attach folder id).WellFormed where
  toLinked := h.toLinked.attach folder id
  toFiled := h.toFiled.attach hstamp hfolder hfree
  marked := by
    intro i
    have hfolder_eq := folder_attach_eq hstamp hfolder i
    refine (h.marked i).of_grows (grows_attach fun {other} => hfree other) ?_ ?_
    · rw [hfolder_eq]
      split <;> rfl
    · rw [hfolder_eq]
      split
      · exact ⟨[id], rfl⟩
      · exact ⟨[], (List.append_nil _).symm⟩

theorem WellFormed.insert {tree : Tree} (h : tree.WellFormed) (stamp : Stamp) :
    (tree.insert stamp).2.WellFormed where
  toLinked := h.toLinked.of_same rfl (fun _ => rfl) (fun _ => rfl) (fun _ => rfl) fun _ => rfl
  toFiled := h.toFiled.insert stamp
  marked := fun i => (h.marked i).of_grows (tree.grows_insert stamp) rfl ⟨[], (List.append_nil _).symm⟩

theorem stamp?_insert_self (tree : Tree) (stamp : Stamp) :
    (tree.insert stamp).2.stamp? tree.slots.length = some stamp := by
  rw [stamp?_insert, if_pos rfl]

theorem stampFolder?_insert_self (tree : Tree) (stamp : Stamp) :
    (tree.insert stamp).2.stampFolder? tree.slots.length = none := by
  rw [stampFolder?_insert, stampFolder?, slot?_length]
  rfl

theorem folder_hookStamp {tree : Tree} {folder : FolderId} (hfolder : folder < tree.size) (stamp : Stamp)
    (i : FolderId) :
    (tree.hookStamp folder stamp).2.folder i =
      if i = folder then (tree.folder i).hooked stamp.kind tree.slots.length else tree.folder i :=
  folder_attach_eq (tree.stamp?_insert_self stamp) hfolder i

theorem content_hookStamp {tree : Tree} {folder : FolderId} (hfolder : folder < tree.size) (stamp : Stamp)
    (id : FolderId) :
    ((tree.hookStamp folder stamp).2.folder id).content =
      (tree.folder id).content ++ if id = folder then [tree.slots.length] else [] :=
  content_attach (tree.stamp?_insert_self stamp) hfolder id

theorem Linked.hookStamp {tree : Tree} (h : tree.Linked) (folder : FolderId) (stamp : Stamp) :
    (tree.hookStamp folder stamp).2.Linked := by
  have hinsert : (tree.insert stamp).2.Linked :=
    h.of_same rfl (fun _ => rfl) (fun _ => rfl) (fun _ => rfl) fun _ => rfl
  exact hinsert.attach folder _

theorem Filed.hookStamp {tree : Tree} (h : tree.Filed) {folder : FolderId} (hfolder : folder < tree.size)
    (stamp : Stamp) : (tree.hookStamp folder stamp).2.Filed := by
  refine (h.insert stamp).attach (tree.stamp?_insert_self stamp) hfolder fun other hother => ?_
  rw [stampFolder?_insert_self] at hother
  cases hother

theorem StartsMarked.hookStamp {tree : Tree} {id : FolderId} (h : tree.StartsMarked id)
    {folder : FolderId} (hfolder : folder < tree.size) (stamp : Stamp) :
    (tree.hookStamp folder stamp).2.StartsMarked id := by
  have hfolder_eq := folder_hookStamp hfolder stamp id
  refine h.of_grows (tree.grows_hookStamp folder stamp) ?_ ?_
  · rw [hfolder_eq]
    split <;> rfl
  · rw [hfolder_eq]
    split
    · exact ⟨[tree.slots.length], rfl⟩
    · exact ⟨[], (List.append_nil _).symm⟩

theorem WellFormed.hookStamp {tree : Tree} (h : tree.WellFormed) {folder : FolderId}
    (hfolder : folder < tree.size) (stamp : Stamp) : (tree.hookStamp folder stamp).2.WellFormed where
  toLinked := h.toLinked.hookStamp folder stamp
  toFiled := h.toFiled.hookStamp hfolder stamp
  marked := fun id => (h.marked id).hookStamp hfolder stamp

theorem WellFormed.hook {tree after : Tree} (h : tree.WellFormed) {folder : FolderId}
    (hfolder : folder < tree.size) {ids : List StampId} (hhook : tree.hook folder ids = .ok after) :
    after.WellFormed := by
  obtain ⟨herror, rfl⟩ := hook_eq_ok_iff.mp hhook
  -- a number that is given twice is hooked a second time onto the same folder
  have hids : ∀ id ∈ ids, (∃ stamp, tree.stamp? id = some stamp) ∧
      ∀ other, tree.stampFolder? id = some other → other = folder := by
    intro id hid
    obtain ⟨hknown, hfree⟩ := free_of_hookError? herror id hid
    refine ⟨hknown, fun other hother => ?_⟩
    rw [hfree] at hother
    cases hother
  clear herror hhook
  induction ids generalizing tree with
  | nil => exact h
  | cons id ids ih =>
    obtain ⟨⟨stamp, hstamp⟩, hfree⟩ := hids id List.mem_cons_self
    refine ih (h.attach hstamp hfolder hfree) (by rwa [size_attach]) fun i hi => ?_
    obtain ⟨hknown, hother⟩ := hids i (List.mem_cons_of_mem id hi)
    rw [stamp?_attach]
    exact ⟨hknown, fun other hnow => (stampFolder?_attach hnow).elim (fun hsame => hsame) (hother other)⟩

/-- A list is hooked behind what stands in its folder already. -/
theorem content_foldl_attach {tree : Tree} {folder : FolderId} (hfolder : folder < tree.size) {ids : List StampId}
    (hids : ∀ id ∈ ids, ∃ stamp, tree.stamp? id = some stamp) (i : FolderId) :
    ((ids.foldl (fun tree id => tree.attach folder id) tree).folder i).content =
      (tree.folder i).content ++ if i = folder then ids else [] := by
  induction ids generalizing tree with
  | nil => rw [ite_self, List.append_nil, List.foldl_nil]
  | cons id ids ih =>
    obtain ⟨⟨stamp, hstamp⟩, hknown⟩ := List.forall_mem_cons.mp hids
    rw [List.foldl_cons, ih (by rwa [size_attach]) (by simpa only [stamp?_attach] using hknown),
      content_attach hstamp hfolder, List.append_assoc]
    split <;> rfl

theorem size_lt_size_grow (tree : Tree) (parent : FolderId) (name : String) (hparent : parent < tree.size) :
    tree.size < (tree.grow parent name hparent).size := by
  rw [size_grow]
  exact Nat.lt_succ_self _

/-- The marker is hooked onto its folder before anything else is. -/
theorem startsMarked_extend {tree : Tree} (h : tree.Linked) {parent : FolderId} (name : String)
    (hparent : parent < tree.size) : (tree.extend parent name hparent).StartsMarked tree.size := by
  intro p hp
  have hsize := tree.size_lt_size_grow parent name hparent
  have hfolder := folder_hookStamp hsize (tree.marker parent) tree.size
  rw [if_pos rfl, folder_grow, if_pos rfl] at hfolder
  rw [extend, hfolder] at hp
  cases hp
  refine ⟨_, [], by rw [extend, hfolder]; rfl, ?_⟩
  have hroot : (tree.folder parent).isRoot = true ↔ parent = root := by
    rw [Folder.isRoot, Option.isNone_iff_eq_none]
    exact h.parent_eq_none_iff parent hparent
  simp only [extend, Tree.hookStamp, stamp?_attach, marker, hroot]
  exact stamp?_insert_self _ _

/-- The folders of a tree keep their markers when a folder is added. -/
theorem StartsMarked.extend {tree : Tree} {id : FolderId} (h : tree.StartsMarked id)
    (hid : id ≠ tree.size) {parent : FolderId} (name : String) (hparent : parent < tree.size) :
    (tree.extend parent name hparent).StartsMarked id := by
  refine StartsMarked.hookStamp ?_ (tree.size_lt_size_grow parent name hparent) _
  have hfolder := tree.folder_grow parent name hparent id
  rw [if_neg hid] at hfolder
  refine h.of_grows (tree.grows_grow parent name hparent) ?_ ⟨[], ?_⟩
  · rw [hfolder]
    split <;> rfl
  · rw [hfolder, List.append_nil]
    split <;> rfl

theorem WellFormed.extend {tree : Tree} (h : tree.WellFormed) {parent : FolderId} {name : String}
    (hparent : parent < tree.size) (hname : name ∉ Assoc.keys (tree.folder parent).children) :
    (tree.extend parent name hparent).WellFormed where
  toLinked := (h.toLinked.grow hparent hname).hookStamp _ _
  toFiled := (h.toFiled.grow name hparent).hookStamp (tree.size_lt_size_grow parent name hparent) _
  marked := by
    intro id
    by_cases hnew : id = tree.size
    · rw [hnew]
      exact startsMarked_extend h.toLinked name hparent
    · exact (h.marked id).extend hnew name hparent

/-- A folder that could be added has a name that its parent did not know. -/
theorem of_add_eq_ok {tree after : Tree} {parent child : FolderId} {name : String}
    {hparent : parent < tree.size} (hadd : tree.add parent name hparent = .ok (child, after)) :
    name ∉ Assoc.keys (tree.folder parent).children ∧ after = tree.extend parent name hparent := by
  unfold add at hadd
  cases hcontains : Assoc.contains (tree.folder parent).children name with
  | true =>
    rw [hcontains] at hadd
    cases hadd
  | false =>
    rw [hcontains] at hadd
    cases hadd
    exact ⟨Assoc.not_mem_keys_of_contains hcontains, rfl⟩

theorem WellFormed.add {tree after : Tree} (h : tree.WellFormed) {parent child : FolderId} {name : String}
    {hparent : parent < tree.size} (hadd : tree.add parent name hparent = .ok (child, after)) :
    after.WellFormed := by
  obtain ⟨hname, rfl⟩ := of_add_eq_ok hadd
  exact h.extend hparent hname

theorem folder_new (context : Context) (id : FolderId) :
    (new context).folder id = { name := "", index := 0, parent := none } := by
  cases id with
  | zero => rfl
  | succ id => exact folder_of_size_le (Nat.succ_le_succ (Nat.zero_le id))

theorem linked_new (context : Context) : (new context).Linked where
  root_lt_size := Nat.lt_succ_self 0
  parent_eq_none_iff := by
    intro id hid
    rw [folder_new]
    exact iff_of_true rfl (Nat.lt_one_iff.mp hid)
  listed := by
    intro id parent hparent
    rw [folder_new] at hparent
    cases hparent
  names_nodup := by
    intro id
    rw [folder_new]
    exact List.nodup_nil
  childIds_nodup := by
    intro id
    rw [folder_new]
    exact List.nodup_nil
  parent_of_child := by
    intro id child hchild
    rw [folder_new] at hchild
    cases hchild

theorem filed_new (context : Context) : (new context).Filed where
  mem_content_iff := by
    intro folder id
    rw [folder_new]
    exact iff_of_false List.not_mem_nil nofun
  ofKind_eq := by
    intro folder kind
    rw [folder_new]
    rfl

theorem wellFormed_new (context : Context) : (new context).WellFormed where
  toLinked := linked_new context
  toFiled := filed_new context
  marked := by
    intro id parent hparent
    rw [folder_new] at hparent
    cases hparent

end ApplianceConfig.Tree
