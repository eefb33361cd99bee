import ApplianceConfig.Proofs.Tree.Arena
import Mathlib.Data.List.Nodup
import Mathlib.Logic.Relation

/-!
# Walks as recursions

A walk keeps a stack, and what it visits is what a recursion over the tree visits: the subtrees of the folders on the stack, one after another. In a well-formed tree it comes to every folder that its start holds, and to none of them twice. The root is the one that it never visits.
-/

namespace ApplianceConfig.Tree

theorem preorder_eq (tree : Tree) (id : FolderId) :
    tree.preorder id = (if (tree.folder id).isRoot then [] else [id]) ++
      (tree.folder id).childIds.flatMap tree.preorder := by
  rw [preorder, List.flatMap_subtype (fun _ _ => rfl), List.unattach_attach]

/-- The stack holds the folders whose subtrees are still to be visited. -/
theorem walk_eq_flatMap (tree : Tree) (stack : List FolderId) :
    tree.walk stack = stack.flatMap tree.preorder := by
  induction stack using walk.induct tree with
  | case1 => rw [walk, List.flatMap_nil]
  | case2 id stack hroot ih =>
    rw [walk, if_pos hroot, ih, List.flatMap_append, List.flatMap_cons, preorder_eq, if_pos hroot,
      List.nil_append]
  | case3 id stack hroot ih =>
    rw [walk, if_neg hroot, ih, List.flatMap_append, List.flatMap_cons, preorder_eq tree id,
      if_neg hroot, List.append_assoc, List.singleton_append]

theorem walk_singleton (tree : Tree) (id : FolderId) : tree.walk [id] = tree.preorder id := by
  rw [walk_eq_flatMap, List.flatMap_singleton]

theorem enumerate_true (tree : Tree) (start : FolderId) : tree.enumerate start true = tree.preorder start := by
  rw [enumerate, if_pos rfl, walk_singleton]

/-- A walk passes through folders without a parent, and does not visit them. -/
theorem not_isRoot_of_mem_preorder {tree : Tree} {start id : FolderId} (h : id ∈ tree.preorder start) :
    ¬ (tree.folder id).isRoot = true := by
  induction start using preorder.induct tree with
  | case1 start ih =>
    rw [preorder_eq, List.mem_append] at h
    rcases h with hself | hbelow
    · by_cases hroot : (tree.folder start).isRoot = true
      · rw [if_pos hroot] at hself
        cases hself
      · rw [if_neg hroot] at hself
        rwa [List.mem_singleton.mp hself]
    · obtain ⟨child, hchild, hid⟩ := List.mem_flatMap.mp hbelow
      exact ih ⟨child, hchild⟩ hid

theorem exists_parent_of_not_isRoot {tree : Tree} {id : FolderId} (h : ¬ (tree.folder id).isRoot = true) :
    ∃ parent, (tree.folder id).parent = some parent := by
  rw [Folder.isRoot, Option.isNone_iff_eq_none] at h
  exact Option.ne_none_iff_exists'.mp h

/-! ### Folders in folders -/

/-- A folder holds itself, the folders right in it, and what these hold. -/
def Holds (tree : Tree) : FolderId → FolderId → Prop :=
  Relation.ReflTransGen fun parent child => (tree.folder child).parent = some parent

namespace Holds

variable {tree : Tree} {start id : FolderId}

theorem le (h : tree.Holds start id) : start ≤ id := by
  induction h with
  | refl => exact Nat.le_refl start
  | tail _ hparent ih => exact Nat.le_of_lt (Nat.lt_of_le_of_lt ih (tree.parent_lt_of_folder hparent))

theorem lt_size (h : tree.Holds start id) (hstart : start < tree.size) : id < tree.size := by
  cases h with
  | refl => exact hstart
  | tail _ hparent => exact lt_size_of_parent hparent

/-- A folder that holds another one holds its parent and its siblings too. -/
theorem parent (h : tree.Holds start id) (hne : id ≠ start) :
    ∃ parent, (tree.folder id).parent = some parent ∧ tree.Holds start parent := by
  cases h with
  | refl => exact absurd rfl hne
  | tail hholds hlast => exact ⟨_, hlast, hholds⟩

theorem sibling {other : FolderId} (h : tree.Holds start id) (hne : id ≠ start)
    (hparent : (tree.folder other).parent = (tree.folder id).parent) : tree.Holds start other := by
  obtain ⟨parent, hid, hholds⟩ := h.parent hne
  exact hholds.tail (hparent.trans hid)

/-- Of two folders that hold a third, one holds the other, as there is only one way up from the third. -/
theorem total {first second : FolderId} (hfirst : tree.Holds first id) (hsecond : tree.Holds second id) :
    tree.Holds first second ∨ tree.Holds second first := by
  have hparents : Relator.RightUnique fun child parent => (tree.folder child).parent = some parent :=
    fun _ _ _ hone hother => Option.some.inj (hone.symm.trans hother)
  have hup := Relation.ReflTransGen.total_of_right_unique hparents hfirst.swap hsecond.swap
  exact hup.symm.imp (fun hdown => hdown.swap) fun hdown => hdown.swap

/-- Siblings hold nothing in common. -/
theorem eq_of_sibling {first second : FolderId} (hparent : (tree.folder first).parent = (tree.folder second).parent)
    (hfirst : tree.Holds first id) (hsecond : tree.Holds second id) : first = second := by
  have hbelow {a b : FolderId} (hsame : (tree.folder a).parent = (tree.folder b).parent) (hab : tree.Holds a b) :
      a = b := by
    by_contra hne
    obtain ⟨parent, hparent, hholds⟩ := hab.parent (Ne.symm hne)
    exact Nat.not_le_of_gt (tree.parent_lt_of_folder (hsame.trans hparent)) hholds.le
  exact (hfirst.total hsecond).elim (hbelow hparent) fun h => (hbelow hparent.symm h).symm

end Holds

section Linked

variable {tree : Tree} (h : tree.Linked)

include h

theorem Linked.isRoot_iff {id : FolderId} (hid : id < tree.size) :
    (tree.folder id).isRoot = true ↔ id = root := by
  rw [Folder.isRoot, Option.isNone_iff_eq_none]
  exact h.parent_eq_none_iff id hid

theorem Linked.mem_childIds_iff {id child : FolderId} :
    child ∈ (tree.folder id).childIds ↔ (tree.folder child).parent = some id := by
  refine ⟨h.parent_of_child, fun hparent => ?_⟩
  exact List.mem_map.mpr ⟨_, List.mem_of_getElem? (h.listed hparent).2, rfl⟩

theorem Linked.holds_root {id : FolderId} (hid : id < tree.size) : tree.Holds root id := by
  induction id using Nat.strongRecOn with
  | ind id ih =>
    cases hparent : (tree.folder id).parent with
    | none =>
      rw [(h.parent_eq_none_iff id hid).mp hparent]
      exact .refl
    | some parent =>
      have hlt := tree.parent_lt_of_folder hparent
      exact (ih parent hlt (Nat.lt_trans hlt hid)).tail hparent

theorem Linked.holds_of_mem_preorder {start id : FolderId} (hid : id ∈ tree.preorder start) :
    tree.Holds start id := by
  induction start using preorder.induct tree with
  | case1 start ih =>
    rw [preorder_eq, List.mem_append] at hid
    rcases hid with hself | hbelow
    · split at hself
      · cases hself
      · rw [List.mem_singleton.mp hself]
        exact .refl
    · obtain ⟨child, hchild, hid⟩ := List.mem_flatMap.mp hbelow
      exact .head (h.parent_of_child hchild) (ih ⟨child, hchild⟩ hid)

theorem Linked.mem_preorder_iff {start id : FolderId} (hstart : start < tree.size) :
    id ∈ tree.preorder start ↔ id ≠ root ∧ tree.Holds start id := by
  constructor
  · intro hid
    have hholds := h.holds_of_mem_preorder hid
    exact ⟨fun hroot => not_isRoot_of_mem_preorder hid ((h.isRoot_iff (hholds.lt_size hstart)).mpr hroot), hholds⟩
  · rintro ⟨hroot, hholds⟩
    have hself : ¬ (tree.folder id).isRoot = true := fun hisRoot =>
      hroot ((h.isRoot_iff (hholds.lt_size hstart)).mp hisRoot)
    induction hholds using Relation.ReflTransGen.head_induction_on with
    | refl =>
      rw [preorder_eq, if_neg hself]
      exact List.mem_append_left _ (List.mem_singleton_self id)
    | head hparent _ ih =>
      rw [preorder_eq]
      have hchild := h.mem_childIds_iff.mpr hparent
      exact List.mem_append_right _ (List.mem_flatMap.mpr ⟨_, hchild, ih (lt_size_of_parent hparent)⟩)

theorem Linked.mem_preorder_root_iff {id : FolderId} :
    id ∈ tree.preorder root ↔ id < tree.size ∧ id ≠ root := by
  rw [h.mem_preorder_iff h.root_lt_size, and_comm]
  exact and_congr_left fun _ => ⟨fun hholds => hholds.lt_size h.root_lt_size, h.holds_root⟩

theorem Linked.nodup_preorder (id : FolderId) : (tree.preorder id).Nodup := by
  induction id using preorder.induct tree with
  | case1 id ih =>
    have hbelow : ((tree.folder id).childIds.flatMap tree.preorder).Nodup := by
      refine List.nodup_flatMap.mpr ⟨fun child hchild => ih ⟨child, hchild⟩, ?_⟩
      refine (h.childIds_nodup id).imp_of_mem fun hfirst hsecond hne other hotherFirst hotherSecond => hne ?_
      have hsibling := (h.parent_of_child hfirst).trans (h.parent_of_child hsecond).symm
      exact Holds.eq_of_sibling hsibling (h.holds_of_mem_preorder hotherFirst) (h.holds_of_mem_preorder hotherSecond)
    rw [preorder_eq]
    split
    · exact hbelow
    · refine List.nodup_cons.mpr ⟨fun hmem => ?_, hbelow⟩
      obtain ⟨child, hchild, hid⟩ := List.mem_flatMap.mp hmem
      exact Nat.not_le_of_gt (tree.child_gt_of_folder hchild).1 (h.holds_of_mem_preorder hid).le

end Linked

end ApplianceConfig.Tree
