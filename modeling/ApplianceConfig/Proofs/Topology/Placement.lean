import ApplianceConfig.Proofs.Stamp.Description
import ApplianceConfig.Proofs.Topology.Entries

/-!
# Places of entries

The markers of the folders have the first numbers of a tree, and the entries' stamps follow in the order of the description. Each of them is what its entry describes, on the folder that its entry names, and the ids in it are the numbers of the earlier entries that bear them.
-/

namespace ApplianceConfig

/-- What a name leads to is among the things that were found. -/
theorem Found.mem_of_find {α β ε : Type} {find : α → Except ε β} {names : List α} {found : List β}
    (h : Found find names found) {a : α} (ha : a ∈ names) {b : β} (hb : find a = .ok b) : b ∈ found := by
  induction names generalizing found with
  | nil => cases ha
  | cons name names ih =>
    obtain ⟨first, rest, hfirst, hrest, rfl⟩ := h.of_cons
    rcases List.mem_cons.mp ha with rfl | ha
    · cases hb.symm.trans hfirst
      exact List.mem_cons_self
    · exact List.mem_cons_of_mem first (ih hrest ha)

namespace Tree

/-! ### Markers -/

theorem marker_extend {tree : Tree} {parent other : FolderId} {name : String} (hparent : parent < tree.size)
    (hother : other < tree.size) : (tree.extend parent name hparent).marker other = tree.marker other := by
  rw [marker, marker, (tree.grows_extend parent name hparent).isRoot_eq hother]

theorem slot?_extend (tree : Tree) (parent : FolderId) (name : String) (hparent : parent < tree.size) (id : StampId) :
    (tree.extend parent name hparent).slot? id =
      if id = tree.slots.length then some { stamp := tree.marker parent, folder := some tree.size }
      else tree.slot? id :=
  (tree.grow parent name hparent).slot?_hookStamp tree.size (tree.marker parent) id

theorem content_extend (tree : Tree) (parent : FolderId) (name : String) (hparent : parent < tree.size)
    (id : FolderId) :
    ((tree.extend parent name hparent).folder id).content =
      (tree.folder id).content ++ if id = tree.size then [tree.slots.length] else [] := by
  have hsize := tree.size_lt_size_grow parent name hparent
  rw [extend, content_hookStamp hsize, (tree.content_grow parent name hparent id).1]
  rfl

theorem parent_extend_self (tree : Tree) (parent : FolderId) (name : String) (hparent : parent < tree.size) :
    ((tree.extend parent name hparent).folder tree.size).parent = some parent := by
  have hsize := tree.size_lt_size_grow parent name hparent
  rw [extend, ((tree.grow parent name hparent).grows_hookStamp _ _).folder _ hsize |>.2.2, folder_grow, if_pos rfl]

theorem Bare.length_slots {tree : Tree} (h : tree.Bare) : tree.slots.length + 1 = tree.size := by
  induction h with
  | new context => rfl
  | extend _ _ _ ih =>
    rw [size_extend, Tree.extend, length_slots_hookStamp, ← ih]
    rfl

theorem Bare.content_root {tree : Tree} (h : tree.Bare) : (tree.folder root).content = [] := by
  induction h with
  | new context => rfl
  | @extend tree parent name hbare hparent _ ih =>
    have hroot : root ≠ tree.size := Nat.ne_of_lt hbare.wellFormed.root_lt_size
    rw [content_extend, ih, if_neg hroot]
    rfl

/-- Each folder but the root holds its marker, whose number is the next smaller one. -/
theorem Bare.marked_at {tree : Tree} (h : tree.Bare) {id : Nat} (hid : id + 1 < tree.size) :
    ∃ parent, (tree.folder (id + 1)).parent = some parent ∧
      tree.slot? id = some { stamp := tree.marker parent, folder := some (id + 1) } ∧
      (tree.folder (id + 1)).content = [id] := by
  induction h with
  | new context => exact absurd hid (Nat.not_lt_of_le (Nat.le_add_left 1 id))
  | @extend tree parent name hbare hparent _ ih =>
    rw [size_extend] at hid
    have hlength := hbare.length_slots
    by_cases hnew : id + 1 = tree.size
    · have hlast : id = tree.slots.length := by omega
      refine ⟨parent, ?_, ?_, ?_⟩
      · rw [hnew, parent_extend_self]
      · rw [slot?_extend, if_pos hlast, marker_extend hparent hparent, hnew]
      · rw [content_extend, hnew, if_pos rfl, folder_of_size_le (Nat.le_refl _), hlast]
        rfl
    · have hold : id + 1 < tree.size := by omega
      have hlast : id ≠ tree.slots.length := by omega
      obtain ⟨other, hother, hslot, hcontent⟩ := ih hold
      have hlt := Nat.lt_trans (tree.parent_lt_of_folder hother) hold
      refine ⟨other, ?_, ?_, ?_⟩
      · rw [((tree.grows_extend parent name hparent).folder _ hold).2.2, hother]
      · rw [slot?_extend, if_neg hlast, hslot, marker_extend hparent hlt]
      · rw [content_extend, if_neg hnew, hcontent, List.append_nil]

end Tree

namespace Topology

/-! ### Stamps behind them -/

/-- The stamps that some entries put onto a folder, when the first entry gets a number and each other one the next. -/
def stampsFor (tree : Tree) (folder : FolderId) (entries : List Entry) (first : StampId) : List StampId :=
  ((entries.zipIdx first).filter fun (entry, _) => tree.find? entry.folder = some folder).map Prod.snd

theorem stampsFor_cons (tree : Tree) (folder : FolderId) (entry : Entry) (entries : List Entry) (first : StampId) :
    stampsFor tree folder (entry :: entries) first =
      (if tree.find? entry.folder = some folder then [first] else []) ++
        stampsFor tree folder entries (first + 1) := by
  rw [stampsFor, List.zipIdx_cons, List.filter_cons]
  by_cases hfolder : tree.find? entry.folder = some folder <;> simp [hfolder, stampsFor]

section Fold

variable {topology after : Topology} {entries : List Entry} (h : entries.foldlM addEntry topology = .ok after)

include h

theorem content_of_foldlM (hvalid : topology.Valid) (folder : FolderId) :
    (after.tree.folder folder).content =
      (topology.tree.folder folder).content ++ stampsFor after.tree folder entries topology.tree.slots.length := by
  induction entries generalizing topology with
  | nil =>
    cases h
    exact (List.append_nil _).symm
  | cons entry entries ih =>
    rw [List.foldlM_cons] at h
    obtain ⟨next, hadd, hrest⟩ := bind_eq_ok h
    have hnext := hvalid.addEntry hadd
    obtain ⟨found, stamp, hfound, -, -, rfl⟩ := addEntry_eq_ok_iff.mp hadd
    have hshape := ((topology.extends_hookStamp found stamp entry.id).trans (extends_of_foldlM hrest).1).shape
    have hcontent := Tree.content_hookStamp (hvalid.wellFormed.find?_lt_size hfound) stamp folder
    rw [ih hrest hnext, length_hookStamp, hookStamp, hcontent, stampsFor_cons, hshape.find?_eq, hfound,
      List.append_assoc]
    simp only [Option.some.injEq, eq_comm]

/-- An id stands for what it stood for before, or for the stamp of the entry that bears it. -/
theorem stamp?_of_foldlM {id : EntryId} {number : StampId} :
    after.stamp? id = some number ↔ topology.stamp? id = some number ∨
      ∃ k entry, entries[k]? = some entry ∧ entry.id = some id ∧ number = topology.tree.slots.length + k := by
  induction entries generalizing topology with
  | nil =>
    cases h
    simp
  | cons entry entries ih =>
    rw [List.foldlM_cons] at h
    obtain ⟨next, hadd, hrest⟩ := bind_eq_ok h
    obtain ⟨folder, stamp, -, hunknown, -, rfl⟩ := addEntry_eq_ok_iff.mp hadd
    have hhere : (topology.hookStamp folder stamp entry.id).stamp? id = some number ↔
        topology.stamp? id = some number ∨ entry.id = some id ∧ number = topology.tree.slots.length := by
      rw [stamp?_hookStamp]
      by_cases hid : entry.id = some id
      · simp [hid, hunknown id hid, eq_comm]
      · simp [hid]
    rw [ih hrest, hhere, length_hookStamp, or_assoc]
    refine or_congr_right ⟨?_, ?_⟩
    · rintro (⟨hid, hnumber⟩ | ⟨k, other, hother, hid, hnumber⟩)
      · exact ⟨0, entry, rfl, hid, hnumber⟩
      · exact ⟨k + 1, other, hother, hid, by rw [hnumber, Nat.add_assoc, Nat.add_comm 1]⟩
    · rintro ⟨k, other, hother, hid, hnumber⟩
      cases k with
      | zero =>
        cases hother
        exact .inl ⟨hid, hnumber⟩
      | succ k => exact .inr ⟨k, other, hother, hid, by rw [hnumber, Nat.add_assoc, Nat.add_comm 1]⟩

end Fold

namespace Description

/-- A topology has what a description says, each thing at its place. -/
structure Placed (description : Description) (topology : Topology) : Prop where
  /-- A stamp for each folder but the root, and behind them one for each entry. -/
  length_slots : topology.tree.slots.length = topology.tree.size - 1 + description.entries.length
  /-- The stamp of an entry is on the entry's folder and has what the entry describes. Each id in the entry has become the number of the earlier entry that bears it. -/
  entry : ∀ {k : Nat} {entry : Entry}, description.entries[k]? = some entry →
    ∃ folder stamp, topology.tree.find? entry.folder = some folder ∧
      topology.tree.slot? (topology.tree.size - 1 + k) = some { stamp, folder := some folder } ∧
      stamp.kind = entry.object.kind ∧
      ∃ number : EntryId → StampId, entry.object.Describes number stamp ∧
        ∀ id ∈ entry.object.references, ∃ j < k, ∃ earlier, description.entries[j]? = some earlier ∧
          earlier.id = some id ∧ number id = topology.tree.size - 1 + j
  content_root : (topology.tree.folder Tree.root).content =
    stampsFor topology.tree Tree.root description.entries (topology.tree.size - 1)
  content_folder : ∀ {id : StampId}, id + 1 < topology.tree.size →
    ∃ parent, (topology.tree.folder (id + 1)).parent = some parent ∧
      topology.tree.slot? id = some { stamp := topology.tree.marker parent, folder := some (id + 1) } ∧
      (topology.tree.folder (id + 1)).content =
        id :: stampsFor topology.tree (id + 1) description.entries (topology.tree.size - 1)
  stamp?_eq_some_iff : ∀ {id : EntryId} {number : StampId}, topology.stamp? id = some number ↔
    ∃ k entry, description.entries[k]? = some entry ∧ entry.id = some id ∧ number = topology.tree.size - 1 + k
  stamp?_injective : ∀ {id other : EntryId} {number : StampId},
    topology.stamp? id = some number → topology.stamp? other = some number → id = other

section Load

variable {description : Description} {target : Option Version} {topology : Topology}

theorem extends_of_load (h : description.load target = .ok topology) :
    ∃ version, description.entries.foldlM addEntry { tree := description.folderTree version } = .ok topology ∧
      (description.folderTree version).SameShape topology.tree ∧
      (description.folderTree version).slots.length = topology.tree.size - 1 := by
  obtain ⟨version, -, hbuild⟩ := bind_eq_ok h
  obtain ⟨hextends, -⟩ := extends_of_foldlM hbuild
  refine ⟨version, hbuild, hextends.shape, ?_⟩
  have hlength := (description.bare_folderTree version).length_slots
  have hsize : topology.tree.size = (description.folderTree version).size := hextends.shape.size
  omega

theorem stamp?_of_load (h : description.load target = .ok topology) {id : EntryId} {number : StampId} :
    topology.stamp? id = some number ↔
      ∃ k entry, description.entries[k]? = some entry ∧ entry.id = some id ∧ number = topology.tree.size - 1 + k := by
  obtain ⟨version, hbuild, -, hlength⟩ := extends_of_load h
  rw [stamp?_of_foldlM hbuild, ← hlength]
  exact or_iff_right nofun

/-- A reference of an entry has become the stamp of an earlier entry, since no stamp refers to itself or to a later one. -/
theorem exists_earlier_of_references (h : description.load target = .ok topology) {k : Nat} {object : Object}
    {stamp : Stamp} (hstamp : object.resolve topology.resolve = .ok stamp)
    (hslot : topology.tree.stamp? (topology.tree.size - 1 + k) = some stamp) {id : EntryId}
    (hid : id ∈ object.references) :
    ∃ j < k, ∃ earlier, description.entries[j]? = some earlier ∧ earlier.id = some id ∧
      topology.stamp? id = some (topology.tree.size - 1 + j) := by
  have hfound := Object.references_resolve hstamp
  obtain ⟨number, hnumber⟩ := hfound.exists_of_mem_names hid
  have hback := ((valid_of_load h).refersBack _ stamp hslot number (hfound.mem_of_find hid hnumber)).1
  obtain ⟨j, earlier, hearlier, hname, rfl⟩ := (stamp?_of_load h).mp (resolve_eq_ok_iff.mp hnumber)
  exact ⟨j, Nat.lt_of_add_lt_add_left hback, earlier, hearlier, hname, resolve_eq_ok_iff.mp hnumber⟩

/-- A description that is loaded is loaded as it says. -/
theorem placed_of_load (h : description.load target = .ok topology) : description.Placed topology := by
  obtain ⟨version, hbuild, hshape, hlength⟩ := extends_of_load h
  have hbare := description.bare_folderTree version
  obtain ⟨hextends, hslots⟩ := extends_of_foldlM hbuild
  have hcontent (folder : FolderId) := content_of_foldlM hbuild (description.valid_folderTree version) folder
  simp only [hlength] at hcontent
  refine ⟨?_, fun {k entry} hentry => ?_, ?_, fun {id} hid => ?_, stamp?_of_load h,
    fun {id other number} hone htwo => ?_⟩
  · rw [hslots]
    exact congrArg (· + _) hlength
  · obtain ⟨folder, stamp, hfolder, hstamp, hslot⟩ := slot?_of_foldlM hbuild hentry
    simp only [hlength] at hslot
    have hearlier {id : EntryId} (hid : id ∈ entry.object.references) :=
      exists_earlier_of_references h hstamp (Tree.stamp?_of_slot hslot) hid
    have hdescribes : entry.object.Describes (fun id => (topology.stamp? id).getD 0) stamp := by
      refine Object.describes_of_resolve (fun id hid => ?_) hstamp
      obtain ⟨j, -, earlier, -, -, hknown⟩ := hearlier hid
      rw [resolve_eq_ok_iff, hknown]
      rfl
    refine ⟨folder, stamp, hfolder, hslot, hdescribes.kind_eq, _, hdescribes, fun id hid => ?_⟩
    obtain ⟨j, hj, earlier, hentry', hname, hknown⟩ := hearlier hid
    exact ⟨j, hj, earlier, hentry', hname, by rw [hknown]; rfl⟩
  · rw [hcontent, hbare.content_root]
    rfl
  · rw [hshape.size] at hid
    obtain ⟨parent, hparent, hslot, hmarker⟩ := hbare.marked_at hid
    refine ⟨parent, ?_, ?_, ?_⟩
    · rw [hshape.parent, hparent]
    · rw [Tree.marker, hshape.isRoot_eq]
      exact hextends.slot hslot
    · rw [hcontent, hmarker]
      rfl
  · obtain ⟨j, first, hfirst, hname, rfl⟩ := (stamp?_of_load h).mp hone
    obtain ⟨k, second, hsecond, hname', hnumber⟩ := (stamp?_of_load h).mp htwo
    obtain rfl : j = k := Nat.add_left_cancel hnumber
    cases hfirst.symm.trans hsecond
    exact Option.some.inj (hname.symm.trans hname')

end Load

/-- Entries for three folders, with ids in lists, in fields that may be missing and in a match of a rule in a list of rules. -/
def guarded : Description where
  version := some "bigip 11.6.0"
  partitions := 1
  folders := ["/Partition1/apps"]
  entries := [
    { id := some "net", object := .vlan { name := "internal" } },
    { folder := "/Partition1/apps", id := some "node", object := .node { address := "10.0.0.1" } },
    { folder := "/Partition1", object := .ntp { servers := ["10.0.0.9"] } },
    { id := some "ports", object := .portList { name := "web", ports := ["80"] } },
    { folder := "Partition1/apps", id := some "pool", object := .pool {
        name := "web", members := [{ node := "node", port := 80 }] } },
    { id := some "rules", object := .ruleList {
        name := "edge"
        rules := [{ name := "in", source := { vlans := ["net"] }, destination := { portLists := ["ports"] } }] } },
    { folder := "/Partition1/apps", object := .virtualServer {
        name := "web", address := "10.0.0.2", port := 80, pool := some "pool", rules := [.list "rules"] } },
    { object := .selfIp { address := "10.1.0.1/16", vlan := "net" } }]

theorem placed_guarded : ∃ topology, guarded.load none = .ok topology ∧ guarded.Placed topology := by
  have hok : (guarded.load none).isOk = true := by decide +kernel
  cases hload : guarded.load none with
  | error e =>
    rw [hload] at hok
    cases hok
  | ok topology => exact ⟨topology, rfl, placed_of_load hload⟩

end Description

end Topology

end ApplianceConfig
