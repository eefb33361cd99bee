import ApplianceConfig.Proofs.Render.Repetition

/-!
# Stamps that are shared

The stamps of a kind are listed folder by folder as a walk comes to them, and those of the common partition in front when they are wanted. The common partition is left out of the front when the folder lies in it, and that is found by comparing partitions. So from a folder further down in the common partition only what is below that folder is listed, and from the root, which is in no partition, the walk itself lists the common stamps a second time. From every other folder each stamp is listed once.
-/

namespace ApplianceConfig

namespace Tree

/-- The stamps of a kind in the subtree of a folder, in the order of a walk. -/
def stampsBelow (tree : Tree) (kind : Kind) (start : FolderId) : List StampId :=
  (tree.enumerate start true).flatMap fun folder => (tree.folder folder).ofKind kind

/-- Holds of the stamps of a kind that are hooked onto folders that a folder holds. What is hooked onto the root is in no partition, and no walk comes to it. -/
def StandsBelow (tree : Tree) (kind : Kind) (start : FolderId) (id : StampId) : Prop :=
  (tree.stamp? id).map Stamp.kind = some kind ∧
    ∃ folder, tree.stampFolder? id = some folder ∧ folder ≠ root ∧ tree.Holds start folder

/-! ### Partitions -/

theorem holds_iff_of_parent {tree : Tree} {start id parent : FolderId} (hparent : (tree.folder id).parent = some parent) :
    tree.Holds start id ↔ start = id ∨ tree.Holds start parent := by
  constructor
  · intro hholds
    by_cases hself : id = start
    · exact .inl hself.symm
    · obtain ⟨found, hfound, habove⟩ := hholds.parent hself
      cases hparent.symm.trans hfound
      exact .inr habove
  · rintro (rfl | habove)
    · exact .refl
    · exact habove.tail hparent

theorem holds_root_iff {tree : Tree} {start : FolderId} : tree.Holds start root ↔ start = root :=
  ⟨fun hholds => Nat.le_zero.mp hholds.le, fun hstart => hstart ▸ .refl⟩

/-- A folder right below the root is the partition of the folders that it holds. -/
theorem Linked.partitionOf_eq_iff {tree : Tree} (h : tree.Linked) {partition id : FolderId}
    (hpartition : (tree.folder partition).parent = some root) (hid : id < tree.size) :
    tree.partitionOf id = partition ↔ tree.Holds partition id := by
  have hroot : partition ≠ root := Nat.ne_of_gt (tree.parent_lt_of_folder hpartition)
  induction id using Nat.strongRecOn with
  | ind id ih =>
    rw [Tree.partitionOf_eq]
    cases hparent : (tree.folder id).parent with
    | none =>
      rw [(h.parent_eq_none_iff id hid).mp hparent, holds_root_iff]
      exact eq_comm
    | some parent =>
      have hlt := tree.parent_lt_of_folder hparent
      have hsize := Nat.lt_trans hlt hid
      rw [holds_iff_of_parent hparent]
      simp only [h.isRoot_iff hsize]
      by_cases habove : parent = root
      · rw [if_pos habove, habove, holds_root_iff, or_iff_left hroot]
        exact eq_comm
      · have hne : partition ≠ id := by
          rintro rfl
          exact habove (Option.some.inj (hparent.symm.trans hpartition))
        rw [if_neg habove, or_iff_right hne]
        exact ih parent hlt hsize

/-! ### Stamps below a folder -/

theorem WellFormed.mem_ofKind_iff {tree : Tree} (h : tree.WellFormed) {folder : FolderId} {kind : Kind} {id : StampId} :
    id ∈ (tree.folder folder).ofKind kind ↔
      (tree.stamp? id).map Stamp.kind = some kind ∧ tree.stampFolder? id = some folder := by
  rw [h.ofKind_eq, List.mem_filter, h.mem_content_iff, decide_eq_true_iff, and_comm]

section WellFormed

variable {tree : Tree} (h : tree.WellFormed) {start : FolderId} (hstart : start < tree.size)

include h hstart

theorem WellFormed.mem_stampsBelow_iff {kind : Kind} {id : StampId} :
    id ∈ tree.stampsBelow kind start ↔ tree.StandsBelow kind start id := by
  rw [stampsBelow, List.mem_flatMap, enumerate_true]
  simp only [h.mem_preorder_iff hstart, h.mem_ofKind_iff]
  constructor
  · rintro ⟨folder, ⟨hroot, hholds⟩, hkind, hfolder⟩
    exact ⟨hkind, folder, hfolder, hroot, hholds⟩
  · rintro ⟨hkind, folder, hfolder, hroot, hholds⟩
    exact ⟨folder, ⟨hroot, hholds⟩, hkind, hfolder⟩

omit hstart in
theorem WellFormed.nodup_stampsBelow (hcontents : tree.contents.Nodup) (kind : Kind) (start : FolderId) :
    (tree.stampsBelow kind start).Nodup := by
  have hsublist (folder : FolderId) : ((tree.folder folder).ofKind kind).Sublist (tree.folder folder).content := by
    rw [h.ofKind_eq]
    exact List.filter_sublist
  rw [stampsBelow, enumerate_true, h.nodup_flatMap (h.nodup_preorder start) hsublist]
  exact fun folder _ => (h.nodup_contents_iff.mp hcontents folder).sublist (hsublist folder)

end WellFormed

/-- What stands below two folders stands below one that holds the other. -/
theorem StandsBelow.holds {tree : Tree} {kind : Kind} {first second : FolderId} {id : StampId}
    (hfirst : tree.StandsBelow kind first id) (hsecond : tree.StandsBelow kind second id) :
    tree.Holds first second ∨ tree.Holds second first := by
  obtain ⟨-, folder, hfolder, -, hfirst⟩ := hfirst
  obtain ⟨-, other, hother, -, hsecond⟩ := hsecond
  cases hfolder.symm.trans hother
  exact hfirst.total hsecond

theorem StandsBelow.mono {tree : Tree} {kind : Kind} {outer inner : FolderId} {id : StampId}
    (h : tree.StandsBelow kind inner id) (hholds : tree.Holds outer inner) : tree.StandsBelow kind outer id := by
  obtain ⟨hkind, folder, hfolder, hroot, hbelow⟩ := h
  exact ⟨hkind, folder, hfolder, hroot, hholds.trans hbelow⟩

/-- A folder outside of a partition has no stamp in common with it, unless it is the root, which holds the partition. -/
theorem exists_standsBelow_both_iff {tree : Tree} {kind : Kind} {partition folder : FolderId}
    (hpartition : (tree.folder partition).parent = some root) (hout : ¬ tree.Holds partition folder) :
    (∃ id, tree.StandsBelow kind partition id ∧ tree.StandsBelow kind folder id) ↔
      folder = root ∧ ∃ id, tree.StandsBelow kind partition id := by
  constructor
  · rintro ⟨id, hbelow, hown⟩
    refine ⟨?_, id, hbelow⟩
    rcases (holds_iff_of_parent hpartition).mp ((hbelow.holds hown).resolve_left hout) with rfl | hroot
    · exact absurd .refl hout
    · exact holds_root_iff.mp hroot
  · rintro ⟨rfl, id, hbelow⟩
    exact ⟨id, hbelow, hbelow.mono (.tail .refl hpartition)⟩

/-! ### Lists with the common stamps in front -/

/-- The common partition, if its stamps are listed in front of those of a folder. -/
def front? (tree : Tree) (folder : FolderId) (includeCommon : Bool) : Option FolderId :=
  if includeCommon then (tree.partition? commonPartition).filter (· ≠ tree.partitionOf folder) else none

theorem enumerateStamps_eq (tree : Tree) (folder : FolderId) (kind : Kind) (includeCommon : Bool) :
    tree.enumerateStamps folder kind includeCommon =
      (tree.front? folder includeCommon).toList.flatMap (tree.stampsBelow kind) ++ tree.stampsBelow kind folder := by
  unfold enumerateStamps front?
  rw [List.flatMap_append, List.flatMap_singleton]
  cases includeCommon with
  | false => rfl
  | true =>
    rw [if_pos rfl, if_pos rfl, Option.toList_filter]
    rfl

/-- The common partition is put in front of the folders that are not in it. -/
theorem Linked.front?_eq_some_iff {tree : Tree} (h : tree.Linked) {folder : FolderId} (hfolder : folder < tree.size)
    {includeCommon : Bool} {common : FolderId} :
    tree.front? folder includeCommon = some common ↔
      includeCommon = true ∧ tree.partition? commonPartition = some common ∧ ¬ tree.Holds common folder := by
  unfold front?
  cases includeCommon with
  | false => simp
  | true =>
    rw [if_pos rfl, Option.filter_eq_some_iff, and_iff_right rfl]
    refine and_congr_right fun hcommon => ?_
    rw [decide_eq_true_iff, ← h.partitionOf_eq_iff (h.of_child? hcommon).1 hfolder]
    exact not_congr eq_comm

/-- Which stamps of a kind are listed for a folder, how often and in which order. -/
structure ListsStamps (tree : Tree) (folder : FolderId) (kind : Kind) (includeCommon : Bool) : Prop where
  /-- The common stamps are listed for each folder outside of the common partition, and those of a folder always. -/
  mem_iff : ∀ id, id ∈ tree.enumerateStamps folder kind includeCommon ↔ tree.StandsBelow kind folder id ∨
    includeCommon = true ∧ ∃ common, tree.partition? commonPartition = some common ∧
      ¬ tree.Holds common folder ∧ tree.StandsBelow kind common id
  /-- Only common stamps are ever repeated, and only for the root. -/
  nodup_iff : (tree.enumerateStamps folder kind includeCommon).Nodup ↔
    ¬ (includeCommon = true ∧ folder = root ∧
      ∃ common, tree.partition? commonPartition = some common ∧ ∃ id, tree.StandsBelow kind common id)
  /-- No common stamp is left out unless the folder lies further down in the common partition. -/
  complete : includeCommon = true → ∀ common, tree.partition? commonPartition = some common →
    (tree.Holds common folder → folder = common) →
      ∀ id, tree.StandsBelow kind common id → id ∈ tree.enumerateStamps folder kind includeCommon
  common_first : includeCommon = true → ∀ common, tree.partition? commonPartition = some common →
    ∃ shared others, tree.enumerateStamps folder kind includeCommon = shared ++ others ∧
      (∀ id, id ∈ shared ↔ tree.StandsBelow kind common id ∧ id ∈ tree.enumerateStamps folder kind includeCommon) ∧
      (folder ≠ root → ∀ id ∈ others, ¬ tree.StandsBelow kind common id)

section WellFormed

variable {tree : Tree} (h : tree.WellFormed) {folder : FolderId} (hfolder : folder < tree.size) (kind : Kind)
  (includeCommon : Bool)

include h hfolder

theorem WellFormed.mem_enumerateStamps_iff (id : StampId) :
    id ∈ tree.enumerateStamps folder kind includeCommon ↔ tree.StandsBelow kind folder id ∨
      includeCommon = true ∧ ∃ common, tree.partition? commonPartition = some common ∧
        ¬ tree.Holds common folder ∧ tree.StandsBelow kind common id := by
  rw [enumerateStamps_eq, List.mem_append, or_comm, h.mem_stampsBelow_iff hfolder, List.mem_flatMap]
  refine or_congr_right ?_
  simp only [Option.mem_toList, h.front?_eq_some_iff hfolder]
  constructor
  · rintro ⟨common, ⟨hinclude, hcommon, hout⟩, hid⟩
    exact ⟨hinclude, common, hcommon, hout, (h.mem_stampsBelow_iff (child?_lt_size _ hcommon)).mp hid⟩
  · rintro ⟨hinclude, common, hcommon, hout, hid⟩
    exact ⟨common, ⟨hinclude, hcommon, hout⟩, (h.mem_stampsBelow_iff (child?_lt_size _ hcommon)).mpr hid⟩

theorem WellFormed.nodup_enumerateStamps_iff (hcontents : tree.contents.Nodup) :
    (tree.enumerateStamps folder kind includeCommon).Nodup ↔
      ¬ (includeCommon = true ∧ folder = root ∧
        ∃ common, tree.partition? commonPartition = some common ∧ ∃ id, tree.StandsBelow kind common id) := by
  have hnodup := h.nodup_stampsBelow hcontents kind
  have hfront (common : FolderId) : tree.front? folder includeCommon = some common ↔ _ := h.front?_eq_some_iff hfolder
  rw [enumerateStamps_eq]
  cases hcase : tree.front? folder includeCommon with
  | none =>
    refine iff_of_true (hnodup folder) ?_
    rintro ⟨hinclude, rfl, common, hcommon, -⟩
    have hparent := (h.of_child? hcommon).1
    have hout : ¬ tree.Holds common root := fun hholds =>
      Nat.not_lt_zero _ (tree.parent_lt_of_folder (holds_root_iff.mp hholds ▸ hparent))
    rw [(hfront common).mpr ⟨hinclude, hcommon, hout⟩] at hcase
    cases hcase
  | some common =>
    obtain ⟨hinclude, hcommon, hout⟩ := (hfront common).mp hcase
    have hboth : (∃ id, tree.StandsBelow kind common id ∧ tree.StandsBelow kind folder id) ↔ _ :=
      exists_standsBelow_both_iff (h.of_child? hcommon).1 hout
    have hsize := child?_lt_size _ hcommon
    rw [Option.toList_some, List.flatMap_singleton, List.nodup_append', and_iff_right (hnodup common),
      and_iff_right (hnodup folder), List.disjoint_left]
    simp only [h.mem_stampsBelow_iff hsize, h.mem_stampsBelow_iff hfolder, hinclude, hcommon, Option.some.injEq,
      exists_eq_left', true_and, ← hboth, not_exists, not_and]

theorem WellFormed.common_first_enumerateStamps (hinclude : includeCommon = true) {common : FolderId}
    (hcommon : tree.partition? commonPartition = some common) :
    ∃ shared others, tree.enumerateStamps folder kind includeCommon = shared ++ others ∧
      (∀ id, id ∈ shared ↔ tree.StandsBelow kind common id ∧ id ∈ tree.enumerateStamps folder kind includeCommon) ∧
      (folder ≠ root → ∀ id ∈ others, ¬ tree.StandsBelow kind common id) := by
  by_cases hin : tree.Holds common folder
  · -- all that is listed is below the folder, and so in the common partition
    have hnone : tree.front? folder includeCommon = none := by
      refine Option.eq_none_iff_forall_ne_some.mpr fun other hother => ?_
      obtain ⟨-, hsame, hout⟩ := (h.front?_eq_some_iff hfolder).mp hother
      cases hcommon.symm.trans hsame
      exact hout hin
    have heq := tree.enumerateStamps_eq folder kind includeCommon
    rw [hnone, Option.toList_none, List.flatMap_nil, List.nil_append] at heq
    rw [heq]
    refine ⟨_, [], (List.append_nil _).symm, fun id => ?_, nofun⟩
    rw [h.mem_stampsBelow_iff hfolder]
    exact (and_iff_right_of_imp fun hid => hid.mono hin).symm
  · have hsome := (h.front?_eq_some_iff hfolder).mpr ⟨hinclude, hcommon, hin⟩
    have heq := tree.enumerateStamps_eq folder kind includeCommon
    rw [hsome, Option.toList_some, List.flatMap_singleton] at heq
    have hshared (id : StampId) : id ∈ tree.stampsBelow kind common ↔ tree.StandsBelow kind common id :=
      h.mem_stampsBelow_iff (child?_lt_size _ hcommon)
    refine ⟨_, _, heq, fun id => ?_, fun hroot id hid hbelow => ?_⟩
    · rw [hshared, heq, List.mem_append, hshared]
      exact (and_iff_left_of_imp .inl).symm
    · have hown := (h.mem_stampsBelow_iff hfolder).mp hid
      exact hroot ((exists_standsBelow_both_iff (h.of_child? hcommon).1 hin).mp ⟨id, hbelow, hown⟩).1

theorem WellFormed.listsStamps (hcontents : tree.contents.Nodup) : tree.ListsStamps folder kind includeCommon where
  mem_iff := h.mem_enumerateStamps_iff hfolder kind includeCommon
  nodup_iff := h.nodup_enumerateStamps_iff hfolder kind includeCommon hcontents
  complete := by
    intro hinclude common hcommon hself id hid
    rw [h.mem_enumerateStamps_iff hfolder]
    by_cases hin : tree.Holds common folder
    · exact .inl (hself hin ▸ hid)
    · exact .inr ⟨hinclude, common, hcommon, hin, hid⟩
  common_first := fun hinclude _ hcommon => h.common_first_enumerateStamps hfolder kind includeCommon hinclude hcommon

end WellFormed

end Tree

/-! ### Lists in the trees of sessions -/

namespace Session

/-- In the tree of a session that hooked each stamp once, stamps are listed once for every folder but the root, the common ones in front, and all of them for every folder that does not lie further down in the common partition. -/
theorem enumerateStamps_listed (context : Context) (partitions : Option Nat) (operations : List Operation)
    (honce : (runFrom context partitions operations).tree.contents.Nodup) {folder : FolderId}
    (hfolder : folder < (runFrom context partitions operations).tree.size) (kind : Kind) (includeCommon : Bool) :
    (runFrom context partitions operations).tree.ListsStamps folder kind includeCommon :=
  (runFrom_wellFormed context partitions operations).listsStamps hfolder kind includeCommon honce

/-- A node in the common partition and one in the first numbered partition, with a folder further down in each. -/
def sharedNodes : List Operation := [
  .add 1 "sub", .add 2 "sub", .hookStamp 2 (.node { address := "10.0.0.2" }),
  .hookStamp 1 (.node { address := "10.0.0.1" })]

theorem enumerateStamps_listed_sharedNodes :
    let context : Context := { version := .release .bigip 11 5 0 }
    let tree := (runFrom context (some 1) sharedNodes).tree
    tree.contents.Nodup ∧ 2 < tree.size ∧ tree.enumerateStamps 2 .node true = [5, 4] ∧ tree.ListsStamps 2 .node true := by
  intro context tree
  have honce : tree.contents.Nodup := by decide +kernel
  have hfolder : 2 < tree.size := by decide +kernel
  exact ⟨honce, hfolder, by decide +kernel, enumerateStamps_listed context (some 1) sharedNodes honce hfolder .node true⟩

/-- From the root the common node is listed twice, and from further down in the common partition not at all, although the common stamps are wanted. -/
theorem enumerateStamps_unguarded :
    let context : Context := { version := .release .bigip 11 5 0 }
    let tree := (runFrom context (some 1) sharedNodes).tree
    tree.contents.Nodup ∧ tree.partition? commonPartition = some 1 ∧ tree.StandsBelow .node 1 5 ∧
      ¬ (tree.enumerateStamps Tree.root .node true).Nodup ∧ 5 ∉ tree.enumerateStamps 3 .node true := by
  intro context tree
  have hbelow : tree.StandsBelow .node 1 5 := ⟨by decide +kernel, 1, by decide +kernel, by decide, .refl⟩
  exact ⟨by decide +kernel, by decide +kernel, hbelow, by decide +kernel, by decide +kernel⟩

end Session

end ApplianceConfig
