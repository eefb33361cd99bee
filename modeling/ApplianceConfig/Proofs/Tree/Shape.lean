import ApplianceConfig.Proofs.Tree.Growth
import ApplianceConfig.Proofs.Tree.Traversal
import ApplianceConfig.Render
import ApplianceConfig.Tree.Path

/-!
# Shapes of trees

What folders are called and how they lie in each other is the shape of a tree. Names, paths, partitions and walks depend on the shape alone, not on the stamps in the folders and not on what the tree is written for. So a tree can be written for something else with all of them unchanged, and it makes no difference whether that is said before the tree grows or afterwards.
-/

namespace ApplianceConfig.Tree

/-- Two trees have the same folders, with the same names, lying in each other in the same way. -/
structure SameShape (a b : Tree) : Prop where
  size : b.size = a.size
  name : ∀ id, (b.folder id).name = (a.folder id).name
  index : ∀ id, (b.folder id).index = (a.folder id).index
  parent : ∀ id, (b.folder id).parent = (a.folder id).parent
  children : ∀ id, (b.folder id).children = (a.folder id).children

namespace SameShape

variable {a b c : Tree}

theorem refl (tree : Tree) : tree.SameShape tree :=
  ⟨rfl, fun _ => rfl, fun _ => rfl, fun _ => rfl, fun _ => rfl⟩

theorem symm (h : a.SameShape b) : b.SameShape a :=
  ⟨h.size.symm, fun id => (h.name id).symm, fun id => (h.index id).symm, fun id => (h.parent id).symm,
    fun id => (h.children id).symm⟩

theorem trans (hab : a.SameShape b) (hbc : b.SameShape c) : a.SameShape c :=
  ⟨hbc.size.trans hab.size, fun id => (hbc.name id).trans (hab.name id),
    fun id => (hbc.index id).trans (hab.index id), fun id => (hbc.parent id).trans (hab.parent id),
    fun id => (hbc.children id).trans (hab.children id)⟩

variable (h : a.SameShape b)

include h

theorem isRoot_eq (id : FolderId) : (b.folder id).isRoot = (a.folder id).isRoot := by
  rw [Folder.isRoot, Folder.isRoot, h.parent]

theorem childIds_eq (id : FolderId) : (b.folder id).childIds = (a.folder id).childIds := by
  rw [Folder.childIds, Folder.childIds, h.children]

theorem names_eq (id : FolderId) : b.names id = a.names id := by
  induction id using Nat.strongRecOn with
  | ind id ih =>
    rw [Tree.names_eq, Tree.names_eq a, h.parent, h.name]
    split
    · rfl
    · rename_i p hparent
      rw [ih p (a.parent_lt_of_folder hparent)]

theorem key_eq (id : FolderId) : b.key id = a.key id := by rw [key, key, h.names_eq]

theorem path_eq (id : FolderId) : b.path id = a.path id := by
  rw [path, path, h.isRoot_eq, h.key_eq]

theorem partitionOf_eq (id : FolderId) : b.partitionOf id = a.partitionOf id := by
  induction id using Nat.strongRecOn with
  | ind id ih =>
    rw [Tree.partitionOf_eq, Tree.partitionOf_eq a, h.parent]
    split
    · rfl
    · rename_i p hparent
      rw [h.isRoot_eq, ih p (a.parent_lt_of_folder hparent)]

theorem preorder_eq (id : FolderId) : b.preorder id = a.preorder id := by
  induction id using preorder.induct a with
  | case1 id ih =>
    have hchildren := List.map_congr_left fun child hchild => ih ⟨child, hchild⟩
    rw [Tree.preorder_eq, Tree.preorder_eq a, h.isRoot_eq, h.childIds_eq, List.flatMap_def, hchildren,
      List.flatMap_def]

theorem visited_eq (start : FolderId) (recursive : Bool) :
    b.visited start recursive = a.visited start recursive := by
  rw [visited, visited, enumerate, enumerate, walk_singleton, walk_singleton, h.preorder_eq, h.childIds_eq]

theorem child?_eq (parent : FolderId) (name : String) : b.child? parent name = a.child? parent name := by
  rw [child?, child?, h.children]

theorem partition?_eq (name : String) : b.partition? name = a.partition? name := h.child?_eq root name

theorem descend?_eq (start : FolderId) (names : List String) :
    b.descend? start names = a.descend? start names := by
  induction names generalizing start with
  | nil => rfl
  | cons name names ih =>
    rw [descend?, descend?, h.child?_eq]
    cases a.child? start name with
    | none => rfl
    | some next => exact ih next

theorem find?_eq (key : String) : b.find? key = a.find? key := h.descend?_eq root _

end SameShape

theorem sameShape_insert (tree : Tree) (stamp : Stamp) : tree.SameShape (tree.insert stamp).2 :=
  ⟨rfl, fun _ => rfl, fun _ => rfl, fun _ => rfl, fun _ => rfl⟩

theorem sameShape_attach (tree : Tree) (folder : FolderId) (id : StampId) :
    tree.SameShape (tree.attach folder id) := by
  have hsame (i : FolderId) := tree.folder_attach folder id i
  refine ⟨size_attach tree folder id, ?_, ?_, ?_, ?_⟩ <;>
  · intro i
    obtain ⟨content, byKind, hfolder⟩ := hsame i
    rw [hfolder]

theorem sameShape_hookStamp (tree : Tree) (folder : FolderId) (stamp : Stamp) :
    tree.SameShape (tree.hookStamp folder stamp).2 :=
  (tree.sameShape_insert stamp).trans (sameShape_attach _ folder _)

theorem sameShape_hook {tree after : Tree} {folder : FolderId} {ids : List StampId}
    (h : tree.hook folder ids = .ok after) : tree.SameShape after := by
  obtain ⟨-, rfl⟩ := hook_eq_ok_iff.mp h
  clear h
  induction ids generalizing tree with
  | nil => exact .refl tree
  | cons id ids ih => exact (tree.sameShape_attach folder id).trans ih

/-! ### Paths that are there -/

theorem size_lt_size_extend (tree : Tree) (parent : FolderId) (name : String) (hparent : parent < tree.size) :
    tree.size < (tree.extend parent name hparent).size := by
  rw [size_extend]
  exact Nat.lt_succ_self _

section Ensure

variable {tree : Tree} {start : FolderId} {hstart : start < tree.size} {name : String} {rest : List String}

theorem ensure_of_some {next : FolderId} (h : tree.child? start name = some next) :
    tree.ensure start hstart (name :: rest) = tree.ensure next (tree.child?_lt_size h) rest := by
  rw [ensure]
  split
  · rename_i found hfound
    cases h.symm.trans hfound
    rfl
  · rename_i hnone
    cases h.symm.trans hnone

theorem ensure_of_none (h : tree.child? start name = none) :
    tree.ensure start hstart (name :: rest) =
      (tree.extend start name hstart).ensure tree.size (tree.size_lt_size_extend start name hstart) rest := by
  rw [ensure]
  split
  · rename_i found hfound
    cases h.symm.trans hfound
  · rfl

end Ensure

/-! ### Trees written for something else -/

/-- The same tree, written for something else. -/
def withContext (tree : Tree) (context : Context) : Tree := { tree with context }

section WithContext

variable (tree : Tree) (context : Context)

theorem sameShape_withContext : tree.SameShape (tree.withContext context) :=
  ⟨rfl, fun _ => rfl, fun _ => rfl, fun _ => rfl, fun _ => rfl⟩

theorem new_withContext (other : Context) : (new other).withContext context = new context := rfl

theorem attach_withContext (folder : FolderId) (id : StampId) :
    (tree.withContext context).attach folder id = (tree.attach folder id).withContext context := by
  unfold attach withContext
  cases hstamp : tree.stamp? id with
  | none => simp only [show stamp? { tree with context } id = none from hstamp]
  | some stamp => simp only [show stamp? { tree with context } id = some stamp from hstamp]

theorem hookStamp_withContext (folder : FolderId) (stamp : Stamp) :
    ((tree.withContext context).hookStamp folder stamp).2 =
      (tree.hookStamp folder stamp).2.withContext context :=
  (tree.insert stamp).2.attach_withContext context folder _

theorem extend_withContext (parent : FolderId) (name : String) (hparent : parent < tree.size) :
    (tree.withContext context).extend parent name hparent =
      (tree.extend parent name hparent).withContext context :=
  (tree.grow parent name hparent).hookStamp_withContext context tree.size (tree.marker parent)

theorem add_withContext (parent : FolderId) (name : String) (hparent : parent < tree.size) :
    (tree.withContext context).add parent name hparent =
      (tree.add parent name hparent).map fun added => (added.1, added.2.withContext context) := by
  have hkey := (tree.sameShape_withContext context).key_eq parent
  unfold add
  rw [hkey, extend_withContext]
  change (if Assoc.contains (tree.folder parent).children name then _ else _) = _
  split <;> rfl

theorem hook_withContext (folder : FolderId) (ids : List StampId) :
    (tree.withContext context).hook folder ids = (tree.hook folder ids).map (·.withContext context) := by
  have herror : (tree.withContext context).hookError? ids = tree.hookError? ids := by
    simp only [hookError?, (tree.sameShape_withContext context).key_eq]
    rfl
  have hattached : ids.foldl (fun tree id => tree.attach folder id) (tree.withContext context) =
      (ids.foldl (fun tree id => tree.attach folder id) tree).withContext context :=
    List.foldl_hom (withContext · context) fun tree id => attach_withContext tree context folder id
  rw [hook, hook, herror, hattached]
  cases tree.hookError? ids <;> rfl

theorem withPartitions_withContext (other : Context) (count : Nat) :
    (withPartitions other count).withContext context = withPartitions context count := by
  rw [withPartitions, withPartitions, ← new_withContext context other]
  refine (List.foldl_hom (withContext · context) fun tree name => ?_).symm
  by_cases hroot : root < tree.size
  · have hroot' : root < (tree.withContext context).size := hroot
    rw [dif_pos hroot, dif_pos hroot', add_withContext tree context root name hroot]
    cases tree.add root name hroot <;> rfl
  · have hroot' : ¬ root < (tree.withContext context).size := hroot
    rw [dif_neg hroot, dif_neg hroot']

theorem ensure_withContext {start : FolderId} (hstart : start < tree.size)
    (hstart' : start < (tree.withContext context).size) (names : List String) :
    (tree.withContext context).ensure start hstart' names =
      (tree.ensure start hstart names).withContext context := by
  induction names generalizing tree start with
  | nil => rfl
  | cons name names ih =>
    cases hchild : tree.child? start name with
    | some next =>
      have hchild' : (tree.withContext context).child? start name = some next := hchild
      rw [ensure_of_some hchild, ensure_of_some hchild']
      exact ih tree (tree.child?_lt_size hchild) _
    | none =>
      have hchild' : (tree.withContext context).child? start name = none := hchild
      rw [ensure_of_none hchild, ensure_of_none hchild']
      simp only [extend_withContext tree context start name hstart]
      exact ih (tree.extend start name hstart) _ _

theorem ensurePath_withContext (path : String) :
    (tree.withContext context).ensurePath path = (tree.ensurePath path).withContext context := by
  rw [ensurePath, ensurePath]
  by_cases hroot : root < tree.size
  · have hroot' : root < (tree.withContext context).size := hroot
    rw [dif_pos hroot, dif_pos hroot', tree.ensure_withContext context hroot]
  · have hroot' : ¬ root < (tree.withContext context).size := hroot
    rw [dif_neg hroot, dif_neg hroot']

end WithContext

end ApplianceConfig.Tree
