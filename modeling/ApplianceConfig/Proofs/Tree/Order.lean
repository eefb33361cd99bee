import ApplianceConfig.Proofs.Tree.Reachable
import ApplianceConfig.Proofs.Tree.Shape
import Mathlib.Data.List.Sort

/-!
# The order of a walk

Each step of a walk takes a folder off the stack and puts those right in it there, so as many steps as there are folders in a subtree leave the stack that was below it. What is visited comes in the order of the recursion. A folder lists the folders in it in the order in which they were made, because a new one is always put behind the others. So the walk comes to each folder after its parent and before those that were made after it in the same place.
-/

namespace ApplianceConfig

namespace Tree

/-! ### Steps of a walk -/

/-- What a stack leads to in some steps, and the stack that is left. -/
def walkFor (tree : Tree) : Nat → List FolderId → List FolderId × List FolderId
  | 0, stack => ([], stack)
  | _ + 1, [] => ([], [])
  | steps + 1, id :: stack =>
    let (others, left) := tree.walkFor steps ((tree.folder id).childIds ++ stack)
    (if (tree.folder id).isRoot then others else id :: others, left)

/-- A walk takes one step for each folder in the subtrees on its stack. -/
theorem walkFor_total (tree : Tree) (stack : List FolderId) :
    tree.walkFor (total (stack.map tree.subtreeSize)) stack = (tree.walk stack, []) := by
  induction stack using walk.induct tree with
  | case1 => rw [walk, List.map_nil, total_nil, walkFor]
  | case2 id stack hroot ih | case3 id stack hroot ih =>
    have hsteps : total ((id :: stack).map tree.subtreeSize) =
        total (((tree.folder id).childIds ++ stack).map tree.subtreeSize) + 1 := by
      rw [List.map_cons, total_cons, subtreeSize_eq, List.map_append, total_append]
      omega
    rw [hsteps, walkFor, ih, walk]

/-! ### Folders in the order in which they were made -/

/-- Each folder lists the folders in it in the order in which they were made. -/
def Sorted (tree : Tree) : Prop := ∀ id, (tree.folder id).childIds.Pairwise (· < ·)

theorem sorted_new (context : Context) : (new context).Sorted := by
  intro id
  rw [folder_new]
  exact .nil

theorem SameShape.sorted {a b : Tree} (h : a.SameShape b) (hsorted : a.Sorted) : b.Sorted := by
  intro id
  rw [h.childIds_eq]
  exact hsorted id

theorem Sorted.grow {tree : Tree} (h : tree.Sorted) {parent : FolderId} (name : String) (hparent : parent < tree.size) :
    (tree.grow parent name hparent).Sorted := by
  intro id
  rw [folder_grow]
  split
  · exact .nil
  · split
    · rw [Folder.childIds, Folder.withChild, List.map_append, List.pairwise_append]
      refine ⟨h id, List.pairwise_singleton _ _, fun child hchild new hnew => ?_⟩
      rw [List.mem_singleton.mp hnew]
      exact (tree.child_gt_of_folder hchild).2
    · exact h id

theorem Sorted.extend {tree : Tree} (h : tree.Sorted) {parent : FolderId} (name : String)
    (hparent : parent < tree.size) : (tree.extend parent name hparent).Sorted :=
  (sameShape_hookStamp _ _ _).sorted (h.grow name hparent)

section Linked

variable {tree : Tree} (h : tree.Linked) (hsorted : tree.Sorted)

include h hsorted

/-- The folders in a folder, in the order of all folders. -/
theorem Linked.childIds_eq_filter (id : FolderId) :
    (tree.folder id).childIds = (List.range tree.size).filter fun child => (tree.folder child).parent = some id := by
  refine (hsorted id).eq_of_mem_iff (List.pairwise_lt_range.filter _) fun child => ?_
  rw [h.mem_childIds_iff, List.mem_filter, List.mem_range, decide_eq_true_iff]
  exact (and_iff_right_of_imp lt_size_of_parent).symm

/-- A walk never comes to the parent of a folder that it has visited, nor to a sibling made before it. -/
theorem Linked.pairwise_preorder (start : FolderId) :
    (tree.preorder start).Pairwise fun first second =>
      (tree.folder first).parent ≠ some second ∧
        ((tree.folder first).parent = (tree.folder second).parent → first < second) := by
  induction start using preorder.induct tree with
  | case1 start ih =>
    rw [preorder_eq, List.pairwise_append]
    refine ⟨by split <;> simp, ?_, fun first hfirst second hsecond => ?_⟩
    · refine List.pairwise_flatMap.mpr ⟨fun child hchild => ih ⟨child, hchild⟩, ?_⟩
      refine (hsorted start).imp_of_mem fun {a b} ha hb hlt first hfirst second hsecond => ?_
      have hsibling := (h.parent_of_child ha).trans (h.parent_of_child hb).symm
      have hfirst := h.holds_of_mem_preorder hfirst
      have hsecond := h.holds_of_mem_preorder hsecond
      refine ⟨fun hparent => ?_, fun hparent => ?_⟩
      · exact Nat.ne_of_lt hlt (Holds.eq_of_sibling hsibling hfirst (hsecond.tail hparent))
      -- siblings in both subtrees can only be the folders that these start with
      have hfirstTop : first = a := by
        by_contra hne
        exact Nat.ne_of_lt hlt (Holds.eq_of_sibling hsibling (hfirst.sibling hne hparent.symm) hsecond)
      have hsecondTop : second = b := by
        by_contra hne
        exact Nat.ne_of_lt hlt (Holds.eq_of_sibling hsibling hfirst (hsecond.sibling hne hparent))
      rwa [hfirstTop, hsecondTop]
    · have hself : first = start := by
        split at hfirst
        · cases hfirst
        · exact List.mem_singleton.mp hfirst
      obtain ⟨child, hchild, hsecond⟩ := List.mem_flatMap.mp hsecond
      have hlt : first < second := by
        rw [hself]
        exact Nat.lt_of_lt_of_le (tree.child_gt_of_folder hchild).1 (h.holds_of_mem_preorder hsecond).le
      exact ⟨fun hparent => Nat.lt_asymm hlt (tree.parent_lt_of_folder hparent), fun _ => hlt⟩

end Linked

/-! ### Places in a walk -/

theorem idxOf_lt_of_pairwise {items : List FolderId} {r : FolderId → FolderId → Prop} (h : items.Pairwise r)
    {first second : FolderId} (hfirst : first ∈ items) (hsecond : second ∈ items) (hne : first ≠ second)
    (hr : ¬ r second first) : items.idxOf first < items.idxOf second := by
  rcases Nat.lt_trichotomy (items.idxOf first) (items.idxOf second) with hlt | heq | hgt
  · exact hlt
  · exact absurd ((List.idxOf_inj hfirst).mp heq) hne
  · have hback := List.pairwise_iff_getElem.mp h _ _ (List.idxOf_lt_length_iff.mpr hsecond)
      (List.idxOf_lt_length_iff.mpr hfirst) hgt
    rw [List.getElem_idxOf, List.getElem_idxOf] at hback
    exact absurd hback hr

/-- What a walk from a folder visits, and in which order. -/
structure WalksInOrder (tree : Tree) (start : FolderId) : Prop where
  /-- The stack is empty after one step for each folder in the subtree. -/
  ends : tree.walkFor (tree.subtreeSize start) [start] = (tree.enumerate start true, [])
  recursive : tree.enumerate start true =
    (if start = root then [] else [start]) ++ (tree.enumerate start false).flatMap (tree.enumerate · true)
  /-- The folders right in a folder, in the order in which they were made. -/
  direct : tree.enumerate start false =
    (List.range tree.size).filter fun id => (tree.folder id).parent = some start
  nodup : (tree.enumerate start true).Nodup
  mem_iff : ∀ id, id ∈ tree.enumerate start true ↔ id ≠ root ∧ tree.Holds start id
  parent_first : ∀ id ∈ tree.enumerate start true, id ≠ start → ∀ parent, (tree.folder id).parent = some parent →
    parent ≠ root → (tree.enumerate start true).idxOf parent < (tree.enumerate start true).idxOf id
  siblings_in_order : ∀ id ∈ tree.enumerate start true, id ≠ start → ∀ later, id < later →
    (tree.folder later).parent = (tree.folder id).parent →
      (tree.enumerate start true).idxOf id < (tree.enumerate start true).idxOf later

theorem Linked.walksInOrder {tree : Tree} (h : tree.Linked) (hsorted : tree.Sorted) {start : FolderId}
    (hstart : start < tree.size) : tree.WalksInOrder start := by
  have hmem (id : FolderId) : id ∈ tree.preorder start ↔ id ≠ root ∧ tree.Holds start id :=
    h.mem_preorder_iff hstart
  have hpairwise := h.pairwise_preorder hsorted start
  constructor
  case ends =>
    have hsteps := tree.walkFor_total [start]
    rw [List.map_singleton, total_cons, total_nil, Nat.add_zero, walk_singleton, ← enumerate_true] at hsteps
    exact hsteps
  case recursive =>
    simp only [enumerate_true]
    rw [preorder_eq]
    simp only [h.isRoot_iff hstart]
    rfl
  case direct => exact h.childIds_eq_filter hsorted start
  all_goals rw [enumerate_true]
  case nodup => exact h.nodup_preorder start
  case mem_iff => exact hmem
  case parent_first =>
    intro id hid hne parent hparent hroot
    obtain ⟨found, hfound, hholds⟩ := ((hmem id).mp hid).2.parent hne
    cases hparent.symm.trans hfound
    have hlt := tree.parent_lt_of_folder hparent
    apply idxOf_lt_of_pairwise hpairwise ((hmem parent).mpr ⟨hroot, hholds⟩) hid (Nat.ne_of_lt hlt)
    exact fun hback => hback.1 hparent
  case siblings_in_order =>
    intro id hid hne later hlt hparent
    obtain ⟨hroot, hholds⟩ := (hmem id).mp hid
    have hlater := (hmem later).mpr ⟨Nat.ne_of_gt (Nat.zero_lt_of_lt hlt), hholds.sibling hne hparent⟩
    apply idxOf_lt_of_pairwise hpairwise hid hlater (Nat.ne_of_lt hlt)
    exact fun hback => Nat.lt_asymm hlt (hback.2 hparent)

end Tree

/-! ### Walks in the trees of sessions -/

namespace Session

theorem step_sorted {session : Session} (h : session.tree.Sorted) (operation : Operation) :
    (session.step operation).tree.Sorted := by
  cases operation with
  | add parent name =>
    simp only [step]
    split
    · rename_i hparent
      cases hadd : session.tree.add parent name hparent with
      | error e => exact h
      | ok grown =>
        obtain ⟨-, hgrown⟩ := Tree.of_add_eq_ok hadd
        change grown.2.Sorted
        rw [hgrown]
        exact h.extend name hparent
    · exact h
  | insert stamp => exact (session.tree.sameShape_insert stamp).sorted h
  | hook folder ids =>
    simp only [step]
    split
    · cases hhook : session.tree.hook folder ids with
      | error e => exact h
      | ok grown => exact (Tree.sameShape_hook hhook).sorted h
    · exact h
  | hookStamp folder stamp =>
    simp only [step]
    split
    · exact (session.tree.sameShape_hookStamp folder stamp).sorted h
    · exact h
  | compile | reference | render | recache => exact h

theorem run_sorted (context : Context) (operations : List Operation) : (run context operations).tree.Sorted :=
  List.foldlRecOn (motive := fun session => session.tree.Sorted) operations step (Tree.sorted_new context)
    fun _ h operation _ => step_sorted h operation

/-- A walk in the tree of a session ends, and it visits each folder that its start holds once, behind its parent and in front of the siblings that were made after it. -/
theorem enumerate_preorder (context : Context) (partitions : Option Nat) (operations : List Operation)
    {start : FolderId} (hstart : start < (runFrom context partitions operations).tree.size) :
    (runFrom context partitions operations).tree.WalksInOrder start := by
  obtain ⟨first, hfirst⟩ := runFrom_eq_run context partitions
  rw [hfirst] at hstart ⊢
  exact (run_wellFormed context _).walksInOrder (run_sorted context _) hstart

/-- The last folder is made in the first one, and visited before the sibling of that. -/
theorem enumerate_preorder_lastInFirst :
    let context : Context := { version := .release .bigip 11 5 0 }
    let operations : List Operation := [.add 1 "first", .add 1 "second", .add 2 "last"]
    let tree := (runFrom context (some 0) operations).tree
    1 < tree.size ∧ tree.enumerate 1 true = [1, 2, 4, 3] ∧ tree.WalksInOrder 1 := by
  intro context operations tree
  have hstart : 1 < tree.size := by decide
  exact ⟨hstart, by decide +kernel, enumerate_preorder context (some 0) operations hstart⟩

end Session

end ApplianceConfig
