import ApplianceConfig.Proofs.Tree.Backward

/-!
# Folders along paths

Making a path adds the folders that its first names lead to, as far as they are missing, and no others. Each of them is missing when it is added, so making the folders one by one is never refused.
-/

namespace ApplianceConfig.Tree

/-- A folder of the tree has these names. -/
def HasNames (tree : Tree) (names : List String) : Prop := ∃ id < tree.size, tree.names id = names

theorem hasNames_of_lt (tree : Tree) {id : FolderId} (h : id < tree.size) : tree.HasNames (tree.names id) := ⟨id, h, rfl⟩

theorem hasNames_new (context : Context) (names : List String) : (new context).HasNames names ↔ names = [] := by
  have hroot : (new context).names root = [] := by
    rw [names_eq, folder_new]
  constructor
  · rintro ⟨id, hid, rfl⟩
    rw [size_new, Nat.lt_one_iff] at hid
    rw [hid]
    exact hroot
  · rintro rfl
    exact ⟨root, Nat.one_pos, hroot⟩

theorem Linked.names_eq_nil_iff {tree : Tree} (h : tree.Linked) {id : FolderId} (hid : id < tree.size) :
    tree.names id = [] ↔ id = root := by
  constructor
  · intro hnil
    have hfound := h.descend?_names hid
    rw [hnil] at hfound
    exact (Option.some.inj hfound).symm
  · rintro rfl
    exact h.names_root

/-- The keys of folders other than the root are put together from names, of which there is at least one. -/
theorem Linked.exists_key_iff {tree : Tree} (h : tree.Linked) (key : String) :
    (∃ id < tree.size, id ≠ root ∧ tree.key id = key) ↔
      ∃ names, names ≠ [] ∧ tree.HasNames names ∧ "/".intercalate names = key := by
  constructor
  · rintro ⟨id, hid, hroot, hkey⟩
    exact ⟨tree.names id, mt (h.names_eq_nil_iff hid).mp hroot, tree.hasNames_of_lt hid, hkey⟩
  · rintro ⟨_, hne, ⟨id, hid, rfl⟩, hkey⟩
    exact ⟨id, hid, mt (h.names_eq_nil_iff hid).mpr hne, hkey⟩

/-- The names of a path's first folders, behind those of the folder that the path starts from. -/
theorem exists_prefix_cons {names start rest : List String} {name : String} :
    (∃ front, front <+: name :: rest ∧ names = start ++ front) ↔
      names = start ∨ ∃ front, front <+: rest ∧ names = start ++ [name] ++ front := by
  simp only [List.prefix_cons_iff, or_and_right, exists_or, List.append_assoc, List.singleton_append]
  refine or_congr (by simp) ⟨?_, ?_⟩
  · rintro ⟨_, ⟨front, rfl, hfront⟩, hnames⟩
    exact ⟨front, hfront, hnames⟩
  · rintro ⟨front, hfront, hnames⟩
    exact ⟨_, ⟨front, rfl, hfront⟩, hnames⟩

/-! ### One more folder -/

section Child

variable {tree : Tree} {parent : FolderId} {name : String}

theorem Linked.hasNames_child_iff (h : tree.Linked) (hparent : parent < tree.size) :
    tree.HasNames (tree.names parent ++ [name]) ↔ ∃ child, tree.child? parent name = some child := by
  constructor
  · rintro ⟨id, hid, hnames⟩
    have hfound := h.descend?_names hid
    rw [hnames, descend?_append, h.descend?_names hparent, Option.bind_some, descend?] at hfound
    cases hchild : tree.child? parent name with
    | none =>
      rw [hchild] at hfound
      cases hfound
    | some child => exact ⟨child, rfl⟩
  · rintro ⟨child, hchild⟩
    obtain ⟨hlink, rfl⟩ := h.of_child? hchild
    exact ⟨child, tree.child?_lt_size hchild, names_of_parent hlink⟩

theorem names_extend (hparent : parent < tree.size) :
    (tree.extend parent name hparent).names tree.size = tree.names parent ++ [name] := by
  have hshape : (tree.grow parent name hparent).SameShape (tree.extend parent name hparent) := sameShape_hookStamp ..
  have hfolder := tree.folder_grow parent name hparent tree.size
  rw [if_pos rfl] at hfolder
  have hlink : ((tree.extend parent name hparent).folder tree.size).parent = some parent := by
    rw [hshape.parent, hfolder]
  rw [names_of_parent hlink, hshape.name, hfolder, (tree.grows_extend parent name hparent).names_eq hparent]

theorem hasNames_extend (hparent : parent < tree.size) (names : List String) :
    (tree.extend parent name hparent).HasNames names ↔ tree.HasNames names ∨ names = tree.names parent ++ [name] := by
  have hgrows := tree.grows_extend parent name hparent
  constructor
  · rintro ⟨id, hid, rfl⟩
    rw [size_extend, Nat.lt_succ_iff_lt_or_eq] at hid
    rcases hid with hlt | rfl
    · exact .inl ⟨id, hlt, (hgrows.names_eq hlt).symm⟩
    · exact .inr (names_extend hparent)
  · rintro (⟨id, hid, rfl⟩ | rfl)
    · exact ⟨id, Nat.lt_of_lt_of_le hid hgrows.size, hgrows.names_eq hid⟩
    · exact ⟨tree.size, tree.size_lt_size_extend parent name hparent, names_extend hparent⟩

end Child

/-! ### Paths -/

section Paths

variable {tree : Tree} (h : tree.Bare)

include h

/-- Besides the folders that there were, there are those that the first names of the path lead to. -/
theorem Bare.hasNames_ensure {start : FolderId} (hstart : start < tree.size) (path names : List String) :
    (tree.ensure start hstart path).HasNames names ↔
      tree.HasNames names ∨ ∃ front, front <+: path ∧ names = tree.names start ++ front := by
  -- the folder that the path starts from is there already, and so is each one on the way when the next is made
  induction path generalizing tree start with
  | nil =>
    refine (or_iff_left_of_imp ?_).symm
    rintro ⟨front, hfront, rfl⟩
    rw [List.prefix_nil.mp hfront, List.append_nil]
    exact tree.hasNames_of_lt hstart
  | cons name path ih =>
    have hself : names = tree.names start → tree.HasNames names := fun heq => heq ▸ tree.hasNames_of_lt hstart
    rw [exists_prefix_cons, ← or_assoc, or_iff_left_of_imp hself]
    cases hchild : tree.child? start name with
    | some next =>
      obtain ⟨hlink, rfl⟩ := h.wellFormed.of_child? hchild
      rw [ensure_of_some hchild, ih h, names_of_parent hlink]
    | none =>
      have hlast : names = tree.names start ++ [name] →
          ∃ front, front <+: path ∧ names = tree.names start ++ [name] ++ front :=
        fun heq => ⟨[], List.nil_prefix, by rw [heq, List.append_nil]⟩
      rw [ensure_of_none hchild, ih (h.extend hstart (not_mem_keys_of_child? hchild)), hasNames_extend, names_extend,
        or_assoc, or_iff_right_of_imp hlast]

theorem Bare.hasNames_ensurePath (path : String) (names : List String) :
    (tree.ensurePath path).HasNames names ↔ tree.HasNames names ∨ names <+: Text.segments path := by
  have hlinked := h.wellFormed.toLinked
  rw [Tree.ensurePath, dif_pos hlinked.root_lt_size, h.hasNames_ensure, hlinked.names_root]
  simp

end Paths

/-! ### Folders that might be refused -/

theorem lt_size_of_add {tree after : Tree} {parent child : FolderId} {name : String} {hparent : parent < tree.size}
    (h : tree.add parent name hparent = .ok (child, after)) : child < after.size := by
  unfold add at h
  split at h
  · cases h
  · cases h
    exact tree.size_lt_size_extend parent name hparent

/-- Goes down a path of names from a folder and makes the folders that are missing, each of which might be refused. Gives the folder at the end of the path. -/
def addPath (tree : Tree) (start : FolderId) (hstart : start < tree.size) :
    List String → Except TreeError (FolderId × Tree)
  | [] => .ok (start, tree)
  | name :: rest =>
    match hchild : tree.child? start name with
    | some next => tree.addPath next (tree.child?_lt_size hchild) rest
    | none =>
      match hadd : tree.add start name hstart with
      | .error e => .error e
      | .ok (_, after) => after.addPath _ (lt_size_of_add hadd) rest

/-- No folder along a path is refused. -/
theorem Bare.addPath_eq {tree : Tree} (h : tree.Bare) {start : FolderId} (hstart : start < tree.size)
    (path : List String) :
    ∃ id < (tree.ensure start hstart path).size,
      tree.addPath start hstart path = .ok (id, tree.ensure start hstart path) ∧
      (tree.ensure start hstart path).names id = tree.names start ++ path := by
  induction path generalizing tree start with
  | nil => exact ⟨start, hstart, rfl, (List.append_nil _).symm⟩
  | cons name path ih =>
    rw [addPath, List.append_cons]
    split
    · rename_i next hchild
      obtain ⟨hlink, rfl⟩ := h.wellFormed.of_child? hchild
      rw [ensure_of_some hchild, ← names_of_parent hlink]
      exact ih h _
    · rename_i hchild
      rw [ensure_of_none hchild, ← names_extend hstart]
      split
      · rename_i e hadd
        cases hadd.symm.trans (add_of_child? hchild hstart)
      · rename_i child after hadd
        cases hadd.symm.trans (add_of_child? hchild hstart)
        exact ih (h.extend hstart (not_mem_keys_of_child? hchild)) _

end ApplianceConfig.Tree
