import ApplianceConfig.Proofs.Tree.Backward
import ApplianceConfig.Topology.Basic

/-!
# Building topologies

The tree that a description starts from has folders with their markers and nothing else. Each entry then puts one stamp behind all others and hooks it, so the ids of entries stand for hooked stamps, and a stamp refers only to hooked stamps with smaller numbers than its own. Which version the topology is for has no part in this.
-/

namespace ApplianceConfig

/-- What was found was found for one of the names. -/
theorem Found.exists_of_mem {α β ε : Type} {find : α → Except ε β} {names : List α} {found : List β}
    (h : Found find names found) {b : β} (hb : b ∈ found) : ∃ a ∈ names, find a = .ok b := by
  induction names generalizing found with
  | nil =>
    cases h
    cases hb
  | cons a names ih =>
    obtain ⟨first, rest, hfirst, hrest, rfl⟩ := h.of_cons
    rcases List.mem_cons.mp hb with rfl | hb
    · exact ⟨a, List.mem_cons_self, hfirst⟩
    · obtain ⟨other, hother, hfind⟩ := ih hrest hb
      exact ⟨other, List.mem_cons_of_mem a hother, hfind⟩

/-- Something was found for each of the names. -/
theorem Found.exists_of_mem_names {α β ε : Type} {find : α → Except ε β} {names : List α} {found : List β}
    (h : Found find names found) {a : α} (ha : a ∈ names) : ∃ b, find a = .ok b := by
  induction names generalizing found with
  | nil => cases ha
  | cons name names ih =>
    obtain ⟨first, rest, hfirst, hrest, -⟩ := h.of_cons
    rcases List.mem_cons.mp ha with rfl | ha
    · exact ⟨first, hfirst⟩
    · exact ih hrest ha

namespace Topology

/-! ### Entries -/

/-- The topology with one more stamp, which has an id if its entry gives it one. -/
def hookStamp (topology : Topology) (folder : FolderId) (stamp : Stamp) (id : Option EntryId) : Topology where
  tree := (topology.tree.hookStamp folder stamp).2
  ids := topology.ids ++ id.toList.map (·, topology.tree.slots.length)

/-- The folder of an entry is looked up first, then whether its id is new, and its references last. -/
theorem addEntry_eq (topology : Topology) (entry : Entry) :
    addEntry topology entry = match topology.tree.find? entry.folder with
      | none => .error (.tree (.unknownFolder entry.folder))
      | some folder =>
        match entry.id.filter fun id => (topology.stamp? id).isSome with
        | some id => .error (.duplicateId id)
        | none => (entry.object.resolve topology.resolve).map fun stamp =>
          topology.hookStamp folder stamp entry.id := by
  unfold addEntry
  cases topology.tree.find? entry.folder with
  | none => rfl
  | some folder =>
    cases entry.id with
    | none => cases entry.object.resolve topology.resolve <;> rfl
    | some id =>
      have hcontains : Assoc.contains topology.ids id = (topology.stamp? id).isSome := rfl
      cases hknown : topology.stamp? id with
      | none =>
        simp only [hcontains, Option.filter, hknown]
        cases entry.object.resolve topology.resolve <;> rfl
      | some number =>
        simp only [hcontains, Option.filter, hknown]
        rfl

theorem addEntry_eq_ok_iff {topology after : Topology} {entry : Entry} :
    addEntry topology entry = .ok after ↔
      ∃ folder stamp, topology.tree.find? entry.folder = some folder ∧
        (∀ id, entry.id = some id → topology.stamp? id = none) ∧
        entry.object.resolve topology.resolve = .ok stamp ∧
        after = topology.hookStamp folder stamp entry.id := by
  have hnew : (entry.id.filter fun id => (topology.stamp? id).isSome) = none ↔
      ∀ id, entry.id = some id → topology.stamp? id = none := by
    simp [Option.filter_eq_none_iff]
  rw [addEntry_eq]
  constructor
  · intro h
    cases hfolder : topology.tree.find? entry.folder with
    | none =>
      rw [hfolder] at h
      cases h
    | some folder =>
      cases hid : entry.id.filter fun id => (topology.stamp? id).isSome with
      | some id =>
        simp only [hfolder, hid] at h
        cases h
      | none =>
        cases hstamp : entry.object.resolve topology.resolve with
        | error e =>
          simp only [hfolder, hid, hstamp] at h
          cases h
        | ok stamp =>
          simp only [hfolder, hid, hstamp] at h
          cases h
          exact ⟨folder, stamp, rfl, hnew.mp hid, rfl, rfl⟩
  · rintro ⟨folder, stamp, hfolder, hid, hstamp, rfl⟩
    simp only [hfolder, hnew.mpr hid, hstamp]
    rfl

theorem stamp?_hookStamp (topology : Topology) (folder : FolderId) (stamp : Stamp) (name : Option EntryId)
    (id : EntryId) :
    (topology.hookStamp folder stamp name).stamp? id =
      (topology.stamp? id).or (if name = some id then some topology.tree.slots.length else none) := by
  rw [stamp?, hookStamp, Assoc.get?_append]
  cases name with
  | none => rfl
  | some name => simp [stamp?, Assoc.get?]

theorem length_hookStamp (topology : Topology) (folder : FolderId) (stamp : Stamp) (name : Option EntryId) :
    (topology.hookStamp folder stamp name).tree.slots.length = topology.tree.slots.length + 1 :=
  topology.tree.length_slots_hookStamp folder stamp

theorem sameShape_hookStamp (topology : Topology) (folder : FolderId) (stamp : Stamp) (name : Option EntryId) :
    topology.tree.SameShape (topology.hookStamp folder stamp name).tree :=
  topology.tree.sameShape_hookStamp folder stamp

theorem resolve_eq_ok_iff {topology : Topology} {id : EntryId} {number : StampId} :
    topology.resolve id = .ok number ↔ topology.stamp? id = some number := by
  unfold resolve
  cases topology.stamp? id with
  | none => exact ⟨nofun, nofun⟩
  | some found => exact ⟨fun h => congrArg some (Except.ok.inj h), fun h => congrArg _ (Option.some.inj h)⟩

/-! ### What holds of topologies -/

/-- The tree of a topology is well formed, its ids stand for hooked stamps, and its stamps refer back to hooked stamps. -/
structure Valid (topology : Topology) : Prop where
  wellFormed : topology.tree.WellFormed
  anchored : topology.tree.Anchored
  refersBack : topology.tree.RefersBack
  hooked : ∀ {id number}, topology.stamp? id = some number →
    ∃ folder, topology.tree.stampFolder? number = some folder

theorem Valid.hooked_of_resolve {topology : Topology} (h : topology.Valid) {object : Object} {stamp : Stamp}
    (hstamp : object.resolve topology.resolve = .ok stamp) :
    ∀ target ∈ stamp.references, ∃ folder, topology.tree.stampFolder? target = some folder := by
  intro target htarget
  obtain ⟨id, -, hid⟩ := (Object.references_resolve hstamp).exists_of_mem htarget
  exact h.hooked (resolve_eq_ok_iff.mp hid)

theorem Valid.hookStamp {topology : Topology} (h : topology.Valid) {folder : FolderId}
    (hfolder : folder < topology.tree.size) {stamp : Stamp}
    (hreferences : ∀ target ∈ stamp.references, ∃ hooked, topology.tree.stampFolder? target = some hooked)
    (name : Option EntryId) : (topology.hookStamp folder stamp name).Valid where
  wellFormed := h.wellFormed.hookStamp hfolder stamp
  anchored := h.anchored.hookStamp hfolder stamp
  refersBack := h.refersBack.hookStamp folder hreferences
  hooked := by
    intro id number hnumber
    rw [stamp?_hookStamp] at hnumber
    have hhooked := topology.tree.stampFolder?_hookStamp folder stamp number
    rcases Option.or_eq_some_iff.mp hnumber with hold | ⟨-, hnew⟩
    · obtain ⟨other, hother⟩ := h.hooked hold
      exact ⟨other, (topology.tree.grows_hookStamp folder stamp).stampFolder? hother⟩
    · split at hnew
      · cases hnew
        rw [if_pos rfl] at hhooked
        exact ⟨folder, hhooked⟩
      · cases hnew

theorem Valid.addEntry {topology after : Topology} (h : topology.Valid) {entry : Entry}
    (hadd : Topology.addEntry topology entry = .ok after) : after.Valid := by
  obtain ⟨folder, stamp, hfolder, -, hstamp, rfl⟩ := addEntry_eq_ok_iff.mp hadd
  exact h.hookStamp (h.wellFormed.find?_lt_size hfolder) (h.hooked_of_resolve hstamp) entry.id

theorem Valid.foldlM_addEntry {topology after : Topology} (h : topology.Valid) {entries : List Entry}
    (hbuild : entries.foldlM Topology.addEntry topology = .ok after) : after.Valid := by
  induction entries generalizing topology with
  | nil =>
    cases hbuild
    exact h
  | cons entry entries ih =>
    rw [List.foldlM_cons] at hbuild
    obtain ⟨next, hadd, hrest⟩ := bind_eq_ok hbuild
    exact ih (h.addEntry hadd) hrest

namespace Description

theorem bare_folderTree (description : Description) (version : Version) :
    (description.folderTree version).Bare :=
  List.foldlRecOn _ _ (Tree.bare_withPartitions _ _) fun _ h path _ => h.ensurePath path

theorem valid_folderTree (description : Description) (version : Version) :
    Valid { tree := description.folderTree version } := by
  have hbare := description.bare_folderTree version
  exact ⟨hbare.wellFormed, hbare.anchored, hbare.refersBack, nofun⟩

/-- A topology that has been built is as it should be. -/
theorem valid_of_build {description : Description} {version : Version} {topology : Topology}
    (h : description.build version = .ok topology) : topology.Valid :=
  (description.valid_folderTree version).foldlM_addEntry h

theorem valid_of_load {description : Description} {target : Option Version} {topology : Topology}
    (h : description.load target = .ok topology) : topology.Valid := by
  obtain ⟨version, -, hbuild⟩ := bind_eq_ok h
  exact valid_of_build hbuild

end Description

/-! ### Other versions -/

/-- The same topology, for something else. -/
def withContext (topology : Topology) (context : Context) : Topology :=
  { topology with tree := topology.tree.withContext context }

theorem hookStamp_withContext (topology : Topology) (context : Context) (folder : FolderId) (stamp : Stamp)
    (name : Option EntryId) :
    (topology.withContext context).hookStamp folder stamp name =
      (topology.hookStamp folder stamp name).withContext context := by
  simp only [hookStamp, withContext, Tree.hookStamp_withContext]
  rfl

theorem addEntry_withContext (topology : Topology) (context : Context) (entry : Entry) :
    addEntry (topology.withContext context) entry =
      (addEntry topology entry).map (withContext · context) := by
  have hfind : (topology.withContext context).tree.find? entry.folder = topology.tree.find? entry.folder :=
    (topology.tree.sameShape_withContext context).find?_eq entry.folder
  have hresolve : (topology.withContext context).resolve = topology.resolve := rfl
  have hstamp? : (topology.withContext context).stamp? = topology.stamp? := rfl
  rw [addEntry_eq, addEntry_eq, hfind, hresolve, hstamp?]
  cases topology.tree.find? entry.folder with
  | none => rfl
  | some folder =>
    simp only [hookStamp_withContext]
    cases entry.id.filter fun id => (topology.stamp? id).isSome with
    | some id => rfl
    | none => cases entry.object.resolve topology.resolve <;> rfl

theorem foldlM_addEntry_withContext (topology : Topology) (context : Context) (entries : List Entry) :
    entries.foldlM addEntry (topology.withContext context) =
      (entries.foldlM addEntry topology).map (withContext · context) := by
  induction entries generalizing topology with
  | nil => rfl
  | cons entry entries ih =>
    rw [List.foldlM_cons, List.foldlM_cons, addEntry_withContext]
    cases addEntry topology entry with
    | error e => rfl
    | ok next => exact ih next

namespace Description

theorem folderTree_withContext (description : Description) (version other : Version) :
    (description.folderTree other).withContext (description.context version) = description.folderTree version := by
  rw [folderTree, folderTree, ← Tree.withPartitions_withContext (description.context version)
    (description.context other)]
  exact (List.foldl_hom (Tree.withContext · _) fun tree path => tree.ensurePath_withContext _ path).symm

/-- What can be built for one version can be built for each other one, with no difference but the version. -/
theorem build_eq_withContext (description : Description) (version other : Version) :
    description.build version =
      (description.build other).map (Topology.withContext · (description.context version)) := by
  have hstart : ({ tree := description.folderTree version } : Topology) =
      Topology.withContext { tree := description.folderTree other } (description.context version) := by
    rw [Topology.withContext, folderTree_withContext]
  rw [build, hstart, foldlM_addEntry_withContext]
  rfl

theorem load_of_chooseVersion_error {description : Description} {target : Option Version} {e : TopologyError}
    (hversion : description.chooseVersion target = .error e) : description.load target = .error e := by
  rw [load, hversion]
  rfl

/-- A description that can be loaded for one version can be loaded for each other one. -/
theorem load_of_chooseVersion {description : Description} {target other : Option Version} {topology : Topology}
    (h : description.load target = .ok topology) {version : Version}
    (hversion : description.chooseVersion other = .ok version) :
    description.load other = .ok (topology.withContext (description.context version)) := by
  obtain ⟨first, -, hbuild⟩ := bind_eq_ok h
  rw [load, hversion]
  change description.build version = _
  rw [build_eq_withContext description version first, hbuild]
  rfl

end Description

end Topology

end ApplianceConfig
