import ApplianceConfig.Proofs.Topology.Building
import ApplianceConfig.Proofs.Tree.Keys
import ApplianceConfig.Proofs.Tree.Prefixes

/-!
# Folders of descriptions

Before its first entry a description makes the common partition, the numbered ones, and the folders along all of its paths. No folder is made twice, so none is refused, and which folders there are in the end depends neither on the order of the paths nor on how often a folder is on one of them.
-/

namespace ApplianceConfig

namespace Tree

/-! ### Partitions -/

/-- The names of the partitions that a tree starts with. -/
def partitionNames (count : Nat) : List String :=
  commonPartition :: (List.range count).map fun i => "Partition" ++ toString (i + 1)

theorem mem_partitionNames_iff {count : Nat} {name : String} :
    name ∈ partitionNames count ↔ name = commonPartition ∨ ∃ i < count, name = "Partition" ++ toString (i + 1) := by
  simp [partitionNames, eq_comm]

theorem numbered_injective {i j : Nat} (h : "Partition" ++ toString i = "Partition" ++ toString j) : i = j := by
  have hdigits := (String.append_right_inj "Partition").mp h
  rw [Nat.toString_eq_ofList_toDigits, Nat.toString_eq_ofList_toDigits] at hdigits
  exact Text.toDigits_injective (String.ofList_injective hdigits)

theorem nodup_partitionNames (count : Nat) : (partitionNames count).Nodup := by
  refine List.nodup_cons.mpr ⟨fun hcommon => ?_, ?_⟩
  · obtain ⟨i, -, hname⟩ := List.mem_map.mp hcommon
    have hfirst := congrArg (fun name : String => name.toList.head?) hname
    simp [commonPartition] at hfirst
  · refine List.nodup_range.map fun i j hname => ?_
    exact Nat.succ.inj (numbered_injective hname)

theorem isName_of_mem_partitionNames {count : Nat} {name : String} (h : name ∈ partitionNames count) :
    Text.isName name = true := by
  rcases mem_partitionNames_iff.mp h with rfl | ⟨i, -, rfl⟩
  · decide
  · have hslash : '/' ∉ Nat.toDigits 10 (i + 1) := by
      intro hmem
      cases Nat.isDigit_of_mem_toDigits (by decide) (by decide) hmem
    simp [Text.isName, hslash]

/-- Makes a partition, which might be refused. -/
def addPartition (tree : Tree) (name : String) : Except TreeError Tree :=
  if hroot : root < tree.size then Prod.snd <$> tree.add root name hroot else .ok tree

theorem addPartition_of_missing {tree : Tree} (h : tree.Bare) {name : String} (hname : ¬ tree.HasNames [name]) :
    ∃ after, tree.addPartition name = .ok after ∧ after.Bare ∧
      ∀ names, after.HasNames names ↔ tree.HasNames names ∨ names = [name] := by
  have hlinked := h.wellFormed.toLinked
  have hroot := hlinked.root_lt_size
  have hchild : tree.child? root name = none := by
    rw [Option.eq_none_iff_forall_ne_some]
    intro child hchild
    have hchildNames := (hlinked.hasNames_child_iff hroot).mpr ⟨child, hchild⟩
    rw [hlinked.names_root] at hchildNames
    exact hname hchildNames
  refine ⟨tree.extend root name hroot, ?_, h.extend hroot (not_mem_keys_of_child? hchild), fun names => ?_⟩
  · rw [addPartition, dif_pos hroot, add_of_child? hchild hroot]
    rfl
  · rw [hasNames_extend, hlinked.names_root, List.nil_append]

/-- Partitions with different names are all made. -/
theorem foldlM_addPartition {tree : Tree} (h : tree.Bare) {partitions : List String} (hnodup : partitions.Nodup)
    (hmissing : ∀ name ∈ partitions, ¬ tree.HasNames [name]) :
    ∃ after, partitions.foldlM addPartition tree = .ok after ∧ after.Bare ∧
      ∀ names, after.HasNames names ↔ tree.HasNames names ∨ ∃ name ∈ partitions, names = [name] := by
  induction partitions generalizing tree with
  | nil => exact ⟨tree, rfl, h, by simp⟩
  | cons name partitions ih =>
    obtain ⟨hname, hrest⟩ := List.nodup_cons.mp hnodup
    obtain ⟨hfirst, hothers⟩ := List.forall_mem_cons.mp hmissing
    obtain ⟨next, hadd, hbare, hnext⟩ := addPartition_of_missing h hfirst
    have hstill : ∀ other ∈ partitions, ¬ next.HasNames [other] := by
      intro other hother hnames
      rcases (hnext [other]).mp hnames with hbefore | hsame
      · exact hothers other hother hbefore
      · exact hname (List.singleton_inj.mp hsame ▸ hother)
    obtain ⟨after, hafter, hbareAfter, hlast⟩ := ih hbare hrest hstill
    refine ⟨after, ?_, hbareAfter, fun names => ?_⟩
    · rw [List.foldlM_cons, hadd]
      exact hafter
    · rw [hlast, hnext, List.exists_mem_cons_iff, or_assoc]

/-- The tree that has no partition refused is the one in which refusals would be passed over. -/
theorem foldl_of_foldlM_addPartition {tree after : Tree} {partitions : List String}
    (h : partitions.foldlM addPartition tree = .ok after) :
    partitions.foldl (fun tree name =>
      if hroot : root < tree.size then
        match tree.add root name hroot with
        | .ok (_, grown) => grown
        | .error _ => tree
      else tree) tree = after := by
  induction partitions generalizing tree with
  | nil =>
    cases h
    rfl
  | cons name partitions ih =>
    rw [List.foldlM_cons] at h
    obtain ⟨next, hnext, hrest⟩ := bind_eq_ok h
    rw [List.foldl_cons, ← ih hrest]
    congr 1
    rw [addPartition] at hnext
    split at hnext
    · rename_i hroot
      rw [dif_pos hroot]
      cases hadd : tree.add root name hroot with
      | error e =>
        rw [hadd] at hnext
        cases hnext
      | ok added =>
        rw [hadd] at hnext
        cases hnext
        rfl
    · rename_i hroot
      rw [dif_neg hroot]
      cases hnext
      rfl

/-- None of the partitions that a tree starts with is refused. -/
theorem foldlM_addPartition_new (context : Context) (count : Nat) :
    (partitionNames count).foldlM addPartition (new context) = .ok (withPartitions context count) ∧
      ∀ names, (withPartitions context count).HasNames names ↔
        names = [] ∨ ∃ name ∈ partitionNames count, names = [name] := by
  have hmissing : ∀ name ∈ partitionNames count, ¬ (new context).HasNames [name] := by
    intro name _ hnames
    cases (hasNames_new context _).mp hnames
  obtain ⟨after, hafter, -, hnames⟩ := foldlM_addPartition (.new context) (nodup_partitionNames count) hmissing
  cases foldl_of_foldlM_addPartition hafter
  simp only [hasNames_new] at hnames
  exact ⟨hafter, hnames⟩

/-! ### Paths -/

/-- Makes the folders that are missing along a path, each of which might be refused. -/
def makePath (tree : Tree) (path : String) : Except TreeError Tree :=
  if hroot : root < tree.size then Prod.snd <$> tree.addPath root hroot (Text.segments path) else .ok tree

theorem Bare.makePath_eq {tree : Tree} (h : tree.Bare) (path : String) : tree.makePath path = .ok (tree.ensurePath path) := by
  have hroot := h.wellFormed.root_lt_size
  obtain ⟨id, -, hadd, -⟩ := h.addPath_eq hroot (Text.segments path)
  rw [makePath, dif_pos hroot, hadd, Tree.ensurePath, dif_pos hroot]
  rfl

theorem Bare.foldlM_makePath {tree : Tree} (h : tree.Bare) (paths : List String) :
    paths.foldlM makePath tree = .ok (paths.foldl Tree.ensurePath tree) ∧
      ∀ names, (paths.foldl Tree.ensurePath tree).HasNames names ↔
        tree.HasNames names ∨ ∃ path ∈ paths, names <+: Text.segments path := by
  induction paths generalizing tree with
  | nil => exact ⟨rfl, by simp⟩
  | cons path paths ih =>
    obtain ⟨hmade, hnames⟩ := ih (h.ensurePath path)
    refine ⟨?_, fun names => ?_⟩
    · rw [List.foldlM_cons, h.makePath_eq]
      exact hmade
    · rw [List.foldl_cons, hnames, h.hasNames_ensurePath, List.exists_mem_cons_iff, or_assoc]

end Tree

namespace Topology.Description

/-- Makes the folders of a description one by one, each of which might be refused. -/
def makeFolders (description : Description) (version : Version) : Except TreeError Tree := do
  let tree ← (Tree.partitionNames description.partitions).foldlM Tree.addPartition (.new (description.context version))
  description.folders.foldlM Tree.makePath tree

theorem makeFolders_eq (description : Description) (version : Version) :
    description.makeFolders version = .ok (description.folderTree version) := by
  have hbare := Tree.bare_withPartitions (description.context version) description.partitions
  rw [makeFolders, (Tree.foldlM_addPartition_new (description.context version) description.partitions).1]
  exact (hbare.foldlM_makePath description.folders).1

theorem hasNames_folderTree (description : Description) (version : Version) (names : List String) :
    (description.folderTree version).HasNames names ↔
      names = [] ∨ (∃ name ∈ Tree.partitionNames description.partitions, names = [name]) ∨
        ∃ path ∈ description.folders, names <+: Text.segments path := by
  have hbare := Tree.bare_withPartitions (description.context version) description.partitions
  rw [folderTree, (hbare.foldlM_makePath description.folders).2,
    (Tree.foldlM_addPartition_new (description.context version) description.partitions).2, or_assoc]

theorem named_folderTree (description : Description) (version : Version) : (description.folderTree version).Named := by
  intro id hid hroot
  have hlinked := (description.bare_folderTree version).wellFormed.toLinked
  have hlast : ((description.folderTree version).folder id).name ∈ (description.folderTree version).names id := by
    cases hparent : ((description.folderTree version).folder id).parent with
    | none => exact absurd ((hlinked.parent_eq_none_iff id hid).mp hparent) hroot
    | some parent =>
      rw [Tree.names_of_parent hparent]
      exact List.mem_append_right _ List.mem_cons_self
  rcases (description.hasNames_folderTree version _).mp (Tree.hasNames_of_lt _ hid) with
    hnil | ⟨name, hname, hnames⟩ | ⟨path, -, hnames⟩
  · rw [hnil] at hlast
    cases hlast
  · rw [hnames] at hlast
    exact List.mem_singleton.mp hlast ▸ Tree.isName_of_mem_partitionNames hname
  · exact Text.isName_of_mem_segments (hnames.subset hlast)

theorem exists_key_folderTree_iff (description : Description) (version : Version) (key : String) :
    (∃ id < (description.folderTree version).size, id ≠ Tree.root ∧ (description.folderTree version).key id = key) ↔
      key ∈ Tree.partitionNames description.partitions ∨
        ∃ path ∈ description.folders, ∃ names, names ≠ [] ∧ names <+: Text.segments path ∧
          "/".intercalate names = key := by
  rw [(description.bare_folderTree version).wellFormed.exists_key_iff]
  constructor
  · rintro ⟨names, hne, hnames, rfl⟩
    rcases (description.hasNames_folderTree version names).mp hnames with hnil | ⟨name, hname, rfl⟩ | ⟨path, hpath, hprefix⟩
    · exact absurd hnil hne
    · rw [String.intercalate_singleton]
      exact .inl hname
    · exact .inr ⟨path, hpath, names, hne, hprefix, rfl⟩
  · rintro (hname | ⟨path, hpath, names, hne, hprefix, rfl⟩)
    · have hnames := (description.hasNames_folderTree version [key]).mpr (.inr (.inl ⟨key, hname, rfl⟩))
      exact ⟨[key], List.cons_ne_nil _ _, hnames, String.intercalate_singleton⟩
    · have hnames := (description.hasNames_folderTree version names).mpr (.inr (.inr ⟨path, hpath, hprefix⟩))
      exact ⟨names, hne, hnames, rfl⟩

/-- Making the folders of a description is never refused. Afterwards the folders are the root, the common partition, the numbered ones and those that the first names of some path lead to, with one folder for each key, and each path is found. -/
theorem makeFolders_keys (description : Description) (version : Version) :
    let tree := description.folderTree version
    description.makeFolders version = .ok tree ∧
      (∀ key, (∃ id < tree.size, id ≠ Tree.root ∧ tree.key id = key) ↔
        (key = "Common" ∨ ∃ i < description.partitions, key = "Partition" ++ toString (i + 1)) ∨
          ∃ path ∈ description.folders, ∃ names, names ≠ [] ∧ names <+: Text.segments path ∧
            "/".intercalate names = key) ∧
      (∀ first < tree.size, ∀ second < tree.size, tree.key first = tree.key second → first = second) ∧
      ∀ path ∈ description.folders, ∃ id < tree.size,
        tree.find? path = some id ∧ tree.key id = "/".intercalate (Text.segments path) := by
  intro tree
  have hlinked : tree.Linked := (description.bare_folderTree version).wellFormed.toLinked
  have hkeyed := hlinked.keyed (description.named_folderTree version)
  refine ⟨description.makeFolders_eq version, fun key => ?_, hkeyed.key_inj, fun path hpath => ?_⟩
  · exact (description.exists_key_folderTree_iff version key).trans (or_congr_left Tree.mem_partitionNames_iff)
  · have hnames := description.hasNames_folderTree version (Text.segments path)
    obtain ⟨id, hid, hsegments⟩ := hnames.mpr (.inr (.inr ⟨path, hpath, List.prefix_refl _⟩))
    exact ⟨id, hid, (hlinked.find?_eq_some_iff hid).mpr hsegments.symm, congrArg "/".intercalate hsegments⟩

/-- Paths that overlap, with slashes too many and a partition of their own. -/
example :
    let tree := folderTree
      { partitions := 1, folders := ["Common//a/b", "/Common/a/", "Partition1", "Other/c"] } (.release .bigip 11 5 0)
    (List.range tree.size).map tree.key =
      ["", "Common", "Partition1", "Common/a", "Common/a/b", "Other", "Other/c"] := by
  decide +kernel

end Topology.Description

end ApplianceConfig
