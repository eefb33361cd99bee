import ApplianceConfig.Proofs.Tree.Paths
import ApplianceConfig.Proofs.Tree.Reachable
import ApplianceConfig.Proofs.Tree.Traversal

/-!
# Keys and what they find

A folder's key is its names with slashes between them, and a lookup goes down along the names that are left of a text when it is cut at its slashes. So the two undo each other as long as the names have no slashes in them, and keys say how folders lie in each other: a folder holds another one if its names start the names of the other, and the first name is that of the partition.
-/

namespace ApplianceConfig

namespace Tree

/-- The first name of a folder is that of its partition. -/
theorem Linked.names_partitionOf {tree : Tree} (h : tree.Linked) {id : FolderId} (hid : id < tree.size)
    (hroot : id ≠ root) :
    ∃ first rest, tree.names id = first :: rest ∧ tree.partition? first = some (tree.partitionOf id) := by
  induction id using Nat.strongRecOn with
  | ind id ih =>
    cases hparent : (tree.folder id).parent with
    | none => exact absurd ((h.parent_eq_none_iff id hid).mp hparent) hroot
    | some parent =>
      have hlt := tree.parent_lt_of_folder hparent
      have hsize := Nat.lt_trans hlt hid
      have hchild := h.child?_of_parent hparent
      rw [partitionOf_eq, hparent, names_of_parent hparent]
      simp only [h.isRoot_iff hsize]
      by_cases hpartition : parent = root
      · subst hpartition
        rw [if_pos rfl, h.names_root]
        exact ⟨_, [], rfl, hchild⟩
      · rw [if_neg hpartition]
        obtain ⟨first, rest, hnames, hfirst⟩ := ih parent hlt hsize hpartition
        exact ⟨first, rest ++ [(tree.folder id).name], by rw [hnames, List.cons_append], hfirst⟩

/-- How keys tell folders apart, and what they say about folders that lie in others. -/
structure Keyed (tree : Tree) : Prop where
  find_key : ∀ id < tree.size, tree.find? (tree.key id) = some id
  find_iff : ∀ id < tree.size, ∀ text,
    tree.find? text = some id ↔ "/".intercalate (Text.segments text) = tree.key id
  key_inj : ∀ first < tree.size, ∀ second < tree.size, tree.key first = tree.key second → first = second
  mem_enumerate_iff : ∀ start < tree.size, start ≠ root → ∀ id < tree.size,
    id ∈ tree.enumerate start true ↔
      tree.key id = tree.key start ∨ ∃ rest, tree.key id = tree.key start ++ "/" ++ rest
  partition_of_key : ∀ id < tree.size, id ≠ root →
    ∃ first rest, Text.segments (tree.key id) = first :: rest ∧ tree.partition? first = some (tree.partitionOf id)

theorem Named.segments_key {tree : Tree} (hnamed : tree.Named) (id : FolderId) :
    Text.segments (tree.key id) = tree.names id := Text.segments_intercalate hnamed.isName_of_mem

theorem Linked.mem_enumerate_iff_key {tree : Tree} (h : tree.Linked) (hnamed : tree.Named) {start id : FolderId}
    (hstart : start < tree.size) (hroot : start ≠ root) (hid : id < tree.size) :
    id ∈ tree.enumerate start true ↔
      tree.key id = tree.key start ∨ ∃ rest, tree.key id = tree.key start ++ "/" ++ rest := by
  obtain ⟨first, others, hnames, -⟩ := h.names_partitionOf hstart hroot
  have hbelow (hholds : tree.Holds start id) : id ≠ root :=
    Nat.ne_of_gt (Nat.lt_of_lt_of_le (Nat.pos_of_ne_zero hroot) hholds.le)
  rw [enumerate_true, h.mem_preorder_iff hstart, and_iff_right_of_imp hbelow, h.holds_iff hstart hid]
  constructor
  · rintro ⟨more, hmore⟩
    by_cases hself : more = []
    · rw [hself, List.append_nil] at hmore
      exact .inl (by rw [key, key, hmore])
    · have hne : tree.names start ≠ [] := hnames ▸ List.cons_ne_nil _ _
      refine .inr ⟨"/".intercalate more, ?_⟩
      rw [key, ← hmore, String.intercalate_append_of_ne_nil hne hself, key]
  · rintro (hsame | ⟨rest, hbehind⟩)
    · have heq : tree.names start = tree.names id := by
        rw [← hnamed.segments_key, ← hnamed.segments_key, hsame]
      exact heq ▸ List.prefix_refl _
    · rw [← hnamed.segments_key id, hbehind, Text.segments_append, hnamed.segments_key]
      exact List.prefix_append _ _

theorem Linked.keyed {tree : Tree} (h : tree.Linked) (hnamed : tree.Named) : tree.Keyed := by
  have hfind (id : FolderId) (hid : id < tree.size) : tree.find? (tree.key id) = some id :=
    (h.find?_eq_some_iff hid).mpr (hnamed.segments_key id)
  constructor
  case find_key => exact hfind
  case find_iff =>
    intro id hid text
    rw [h.find?_eq_some_iff hid]
    constructor
    · intro hnames
      rw [hnames, key]
    · intro hkey
      rw [← hnamed.segments_key, ← hkey, Text.segments_intercalate fun _ => Text.isName_of_mem_segments]
  case key_inj =>
    intro first hfirst second hsecond hkey
    have hfound := hfind first hfirst
    rw [hkey, hfind second hsecond] at hfound
    exact (Option.some.inj hfound).symm
  case mem_enumerate_iff => exact fun start hstart hroot id hid => h.mem_enumerate_iff_key hnamed hstart hroot hid
  case partition_of_key =>
    intro id hid hroot
    rw [hnamed.segments_key]
    exact h.names_partitionOf hid hroot

end Tree

/-! ### Keys in the trees of sessions -/

namespace Session

/-- In the tree of a session, keys and lookups undo each other if the folders have names that paths can be put together from. -/
theorem runFrom_keyed (context : Context) (partitions : Option Nat) (operations : List Operation)
    (hnamed : (runFrom context partitions operations).tree.Named) :
    (runFrom context partitions operations).tree.Keyed := by
  obtain ⟨first, hfirst⟩ := runFrom_eq_run context partitions
  rw [hfirst] at hnamed ⊢
  exact (run_wellFormed context _).keyed hnamed

/-- One folder has a name that starts that of another. -/
theorem runFrom_keyed_longerName :
    let context : Context := { version := .release .bigip 11 5 0 }
    let operations : List Operation := [.add 1 "a", .add 1 "ab", .add 2 "c"]
    let tree := (runFrom context (some 0) operations).tree
    tree.Named ∧ tree.enumerate 2 true = [2, 4] ∧ tree.key 3 = "Common/ab" ∧ tree.Keyed := by
  intro context operations tree
  have hnamed : tree.Named := by decide +kernel
  exact ⟨hnamed, by decide +kernel, by decide +kernel, runFrom_keyed context (some 0) operations hnamed⟩

end Session

end ApplianceConfig
