import ApplianceConfig.Proofs.Compile.Renumbering
import ApplianceConfig.Proofs.Topology.Outcome
import Mathlib.Logic.Equiv.Basic

/-!
# Entries in another order

Two entries that follow each other may change places if they are for different folders and the later one does not refer to the earlier one. Their stamps change numbers then, and that is all: each folder holds the same stamps in the same order. Entries behind them find the same stamps under the changed numbers, and what is generated in the end is the same text or the same failure.
-/

namespace ApplianceConfig

/-- A mismatch names no number. -/
theorem CompileError.renumber_eq_self (f : StampId → StampId) {e : CompileError} (h : e.isMismatch = true) :
    e.renumber f = e := by
  induction e with
  | reference kind source ih => exact congrArg (reference kind) (ih h)
  | unknownStamp id => cases h
  | _ => rfl

namespace Topology

/-- The other topology is the same under other numbers. Numbers that are not given yet are not changed. -/
structure Renumbers (f : Equiv.Perm StampId) (topology other : Topology) : Prop where
  tree : topology.tree.Renumbers f other.tree
  stamp? : ∀ id, other.stamp? id = (topology.stamp? id).map f
  length : other.tree.slots.length = topology.tree.slots.length
  fixed : ∀ number, topology.tree.slots.length ≤ number → f number = number

namespace Renumbers

variable {f : Equiv.Perm StampId} {topology other : Topology}

/-! ### Further entries -/

theorem resolve (h : topology.Renumbers f other) (id : EntryId) :
    other.resolve id = (topology.resolve id).map f := by
  rw [Topology.resolve, Topology.resolve, h.stamp?]
  cases topology.stamp? id <;> rfl

theorem hookStamp (h : topology.Renumbers f other) {folder : FolderId} (hfolder : folder < topology.tree.size)
    (stamp : Stamp) (name : Option EntryId) :
    (topology.hookStamp folder stamp name).Renumbers f (other.hookStamp folder (stamp.renumber f) name) := by
  have hnew : f topology.tree.slots.length = topology.tree.slots.length := h.fixed _ (Nat.le_refl _)
  have hfolder' : folder < other.tree.size := by rwa [h.tree.shape.size]
  have hshape := topology.tree.sameShape_hookStamp folder stamp
  have hshape' := other.tree.sameShape_hookStamp folder (stamp.renumber f)
  refine ⟨⟨hshape.symm.trans (h.tree.shape.trans hshape'), ?_, fun id => ?_, fun id => ?_⟩, fun id => ?_, ?_,
    fun number hnumber => ?_⟩
  · exact (other.tree.grows_hookStamp ..).context.trans
      (h.tree.context.trans (topology.tree.grows_hookStamp ..).context.symm)
  · rw [Topology.hookStamp, Topology.hookStamp, Tree.folder_hookStamp hfolder, Tree.folder_hookStamp hfolder']
    split
    · simp only [Folder.hooked, h.tree.content, h.length, List.map_append, List.map_cons, List.map_nil, hnew]
    · exact h.tree.content id
  · rw [Topology.hookStamp, Topology.hookStamp, Tree.slot?_hookStamp, Tree.slot?_hookStamp, h.length]
    by_cases hid : id = topology.tree.slots.length
    · rw [if_pos hid, hid, if_pos hnew]
      rfl
    · have hne : f id ≠ topology.tree.slots.length := fun heq => hid (f.injective (heq.trans hnew.symm))
      rw [if_neg hid, if_neg hne]
      exact h.tree.slot id
  · rw [stamp?_hookStamp, stamp?_hookStamp, h.stamp?, h.length]
    cases topology.stamp? id with
    | some number => rfl
    | none =>
      by_cases hname : name = some id
      · simp [hname, hnew]
      · simp [hname]
  · rw [Topology.hookStamp, Topology.hookStamp, Tree.length_slots_hookStamp, Tree.length_slots_hookStamp, h.length]
  · rw [Topology.hookStamp, Tree.length_slots_hookStamp] at hnumber
    exact h.fixed number (Nat.le_of_succ_le hnumber)

theorem addEntry (h : topology.Renumbers f other) (hvalid : topology.Valid) {entry : Entry} {after : Topology}
    (hadd : Topology.addEntry topology entry = .ok after) :
    ∃ later, Topology.addEntry other entry = .ok later ∧ after.Renumbers f later := by
  obtain ⟨folder, stamp, hfolder, hid, hstamp, rfl⟩ := addEntry_eq_ok_iff.mp hadd
  refine ⟨_, addEntry_eq_ok_iff.mpr ⟨folder, stamp.renumber f, ?_, fun id hname => ?_, ?_, rfl⟩,
    h.hookStamp (hvalid.wellFormed.find?_lt_size hfolder) stamp entry.id⟩
  · rw [h.tree.shape.find?_eq, hfolder]
  · rw [h.stamp?, hid id hname]
    rfl
  · rw [Object.resolve_eq_map fun id _ => h.resolve id, hstamp]
    rfl

theorem foldlM_addEntry (h : topology.Renumbers f other) (hvalid : topology.Valid) {entries : List Entry}
    {after : Topology} (hbuild : entries.foldlM Topology.addEntry topology = .ok after) :
    ∃ later, entries.foldlM Topology.addEntry other = .ok later ∧ after.Renumbers f later := by
  induction entries generalizing topology other with
  | nil =>
    cases hbuild
    exact ⟨other, rfl, h⟩
  | cons entry entries ih =>
    rw [List.foldlM_cons] at hbuild
    obtain ⟨next, hadd, hrest⟩ := bind_eq_ok hbuild
    obtain ⟨nextOther, haddOther, hnext⟩ := h.addEntry hvalid hadd
    obtain ⟨later, hlater, hafter⟩ := ih hnext (hvalid.addEntry hadd) hrest
    refine ⟨later, ?_, hafter⟩
    rw [List.foldlM_cons, haddOther]
    exact hlater

/-- What is generated does not depend on the numbers of stamps. -/
theorem generate (h : topology.Renumbers f other) (hvalid : topology.Valid) (options : GenerationOptions) :
    other.generate options = topology.generate options := by
  have hstart : other.startFolder options.partition = topology.startFolder options.partition := by
    unfold startFolder
    simp only [h.tree.shape.partition?_eq]
  rw [generate_eq, generate_eq, hstart]
  cases topology.startFolder options.partition with
  | error e => rfl
  | ok start =>
    have hfollows := h.tree.rendering start options.render
    have hsettles := hvalid.refersBack.covered.rendering hvalid.wellFormed.toFiled start options.render fun _ => true
    have hsame : (other.tree.rendering start options.render fun _ => true) =
        topology.tree.rendering start options.render fun _ => true := by
      cases hrendering : topology.tree.rendering start options.render fun _ => true with
      | ok text =>
        rw [hrendering] at hfollows
        exact hfollows
      | error e =>
        rw [hrendering] at hfollows hsettles
        rw [show _ = Except.error (e.renumber f) from hfollows, e.renumber_eq_self f hsettles]
    exact congrArg (Except.mapError GenerationError.compile) hsame

end Renumbers

end Topology

/-! ### Two stamps -/

namespace Tree

/-- Exchanges the next two numbers of a tree. -/
def exchange (tree : Tree) : Equiv.Perm StampId := Equiv.swap tree.slots.length (tree.slots.length + 1)

theorem exchange_of_lt {tree : Tree} {number : StampId} (h : number < tree.slots.length) :
    tree.exchange number = number :=
  Equiv.swap_apply_of_ne_of_ne (Nat.ne_of_lt h) (Nat.ne_of_lt (Nat.lt_succ_of_lt h))

theorem exchange_of_le {tree : Tree} {number : StampId} (h : tree.slots.length + 2 ≤ number) :
    tree.exchange number = number := by
  have hlast : tree.slots.length + 1 < number := h
  exact Equiv.swap_apply_of_ne_of_ne (Nat.ne_of_gt (Nat.lt_of_succ_lt hlast)) (Nat.ne_of_gt hlast)

theorem exchange_length (tree : Tree) : tree.exchange tree.slots.length = tree.slots.length + 1 :=
  Equiv.swap_apply_left _ _

theorem exchange_length_succ (tree : Tree) : tree.exchange (tree.slots.length + 1) = tree.slots.length :=
  Equiv.swap_apply_right _ _

/-- A stamp that refers to stamps of the tree only is not changed. -/
theorem renumber_exchange {tree : Tree} {stamp : Stamp}
    (h : ∀ target ∈ stamp.references, ∃ folder, tree.stampFolder? target = some folder) :
    stamp.renumber tree.exchange = stamp := by
  refine Stamp.renumber_eq_self fun target htarget => ?_
  obtain ⟨folder, hfolder⟩ := h target htarget
  exact exchange_of_lt (lt_length_of_stampFolder? hfolder)

theorem RefersBack.slot?_exchange {tree : Tree} (h : tree.RefersBack) (id : StampId) :
    (tree.slot? id).map (Slot.renumber tree.exchange) = tree.slot? id := by
  cases hslot : tree.slot? id with
  | none => rfl
  | some slot =>
    have hreferences := h id slot.stamp (stamp?_of_slot hslot)
    rw [Option.map_some, Slot.renumber, renumber_exchange fun target htarget => (hreferences target htarget).2]

section Pair

variable {tree : Tree} {firstFolder secondFolder : FolderId} {first second : Stamp}

/-- Two stamps that refer to older stamps only may be hooked onto different folders in either order. -/
theorem renumbers_exchange (hfiled : tree.Filed) (hback : tree.RefersBack) (hne : firstFolder ≠ secondFolder)
    (hfirstFolder : firstFolder < tree.size) (hsecondFolder : secondFolder < tree.size)
    (hfirst : ∀ target ∈ first.references, ∃ folder, tree.stampFolder? target = some folder)
    (hsecond : ∀ target ∈ second.references, ∃ folder, tree.stampFolder? target = some folder) :
    ((tree.hookStamp firstFolder first).2.hookStamp secondFolder second).2.Renumbers tree.exchange
      ((tree.hookStamp secondFolder second).2.hookStamp firstFolder first).2 := by
  have hshape (folder folder' : FolderId) (stamp stamp' : Stamp) :
      tree.SameShape ((tree.hookStamp folder stamp).2.hookStamp folder' stamp').2 :=
    (tree.sameShape_hookStamp folder stamp).trans (sameShape_hookStamp _ folder' stamp')
  have hcontext (folder folder' : FolderId) (stamp stamp' : Stamp) :
      ((tree.hookStamp folder stamp).2.hookStamp folder' stamp').2.context = tree.context :=
    (grows_hookStamp _ folder' stamp').context.trans (tree.grows_hookStamp folder stamp).context
  refine ⟨(hshape ..).symm.trans (hshape ..), (hcontext ..).trans (hcontext ..).symm, fun id => ?_, fun id => ?_⟩
  · have hcontent : (tree.folder id).content.map tree.exchange = (tree.folder id).content :=
      map_eq_self fun number hnumber => exchange_of_lt (hfiled.lt_length hnumber)
    have hfirstFolder' : firstFolder < (tree.hookStamp secondFolder second).2.size := by rwa [size_hookStamp]
    have hsecondFolder' : secondFolder < (tree.hookStamp firstFolder first).2.size := by rwa [size_hookStamp]
    rw [content_hookStamp hfirstFolder', content_hookStamp hsecondFolder, content_hookStamp hsecondFolder',
      content_hookStamp hfirstFolder, length_slots_hookStamp, length_slots_hookStamp]
    by_cases hid : id = firstFolder
    · have hother : id ≠ secondFolder := hid ▸ hne
      simp only [if_pos hid, if_neg hother, List.append_nil, List.map_append, hcontent, List.map_cons,
        List.map_nil, exchange_length]
    · by_cases hother : id = secondFolder
      · simp only [if_neg hid, if_pos hother, List.append_nil, List.map_append, hcontent, List.map_cons,
          List.map_nil, exchange_length_succ]
      · simp only [if_neg hid, if_neg hother, List.append_nil, hcontent]
  · rw [slot?_hookStamp, slot?_hookStamp, slot?_hookStamp, slot?_hookStamp, length_slots_hookStamp,
      length_slots_hookStamp]
    have hlast : tree.slots.length ≠ tree.slots.length + 1 := Nat.ne_of_lt (Nat.lt_succ_self _)
    by_cases hlength : id = tree.slots.length
    · rw [hlength, exchange_length, if_pos rfl, if_neg hlast, if_pos rfl, Option.map_some, Slot.renumber,
        renumber_exchange hfirst]
    · by_cases hsucc : id = tree.slots.length + 1
      · rw [hsucc, exchange_length_succ, if_neg hlast, if_pos rfl, if_pos rfl, Option.map_some, Slot.renumber,
          renumber_exchange hsecond]
      · have hfixed : tree.exchange id = id := Equiv.swap_apply_of_ne_of_ne hlength hsucc
        rw [hfixed, if_neg hsucc, if_neg hlength, if_neg hsucc, if_neg hlength, hback.slot?_exchange]

end Pair

end Tree

namespace Topology

/-! ### Two entries -/

/-- An object that could be looked up is looked up with the same result when there is one more stamp. -/
theorem resolve_hookStamp {topology : Topology} {folder : FolderId} {next : Stamp} {name : Option EntryId}
    {object : Object} {stamp : Stamp} (hstamp : object.resolve topology.resolve = .ok stamp) :
    object.resolve (topology.hookStamp folder next name).resolve = .ok stamp := by
  rw [← hstamp]
  refine Object.resolve_congr fun id hid => ?_
  obtain ⟨number, hnumber⟩ := (Object.references_resolve hstamp).exists_of_mem_names hid
  rw [resolve, stamp?_hookStamp, resolve_eq_ok_iff.mp hnumber, Option.some_or, hnumber]

section Pair

variable {topology : Topology}

theorem Valid.renumbers_exchange (h : topology.Valid) {firstFolder secondFolder : FolderId} {first second : Stamp}
    {firstName secondName : Option EntryId} (hne : firstFolder ≠ secondFolder)
    (hfirstFolder : firstFolder < topology.tree.size) (hsecondFolder : secondFolder < topology.tree.size)
    (hfirst : ∀ target ∈ first.references, ∃ folder, topology.tree.stampFolder? target = some folder)
    (hsecond : ∀ target ∈ second.references, ∃ folder, topology.tree.stampFolder? target = some folder)
    (hnames : ∀ id, firstName = some id → secondName ≠ some id) :
    ((topology.hookStamp firstFolder first firstName).hookStamp secondFolder second secondName).Renumbers
      topology.tree.exchange
      ((topology.hookStamp secondFolder second secondName).hookStamp firstFolder first firstName) where
  tree := Tree.renumbers_exchange h.wellFormed.toFiled h.refersBack hne hfirstFolder hsecondFolder hfirst hsecond
  stamp? := by
    intro id
    simp only [stamp?_hookStamp, length_hookStamp]
    cases hknown : topology.stamp? id with
    | some number =>
      obtain ⟨folder, hfolder⟩ := h.hooked hknown
      exact congrArg some (Tree.exchange_of_lt (Tree.lt_length_of_stampFolder? hfolder)).symm
    | none =>
      by_cases hname : firstName = some id
      · have hother := hnames id hname
        simp [hname, hother, Tree.exchange_length]
      · by_cases hother : secondName = some id
        · simp [hname, hother, Tree.exchange_length_succ]
        · simp [hname, hother]
  length := by simp only [length_hookStamp]
  fixed := by
    intro number hnumber
    simp only [length_hookStamp] at hnumber
    exact Tree.exchange_of_le hnumber

/-- Two entries for different folders can be added in either order, unless the later one refers to the earlier one. -/
theorem Valid.addEntry_exchange (h : topology.Valid) {first second : Entry} {mid last : Topology}
    (hfirst : Topology.addEntry topology first = .ok mid) (hsecond : Topology.addEntry mid second = .ok last)
    (hfolders : topology.tree.find? first.folder ≠ topology.tree.find? second.folder)
    (hrefers : ∀ id, first.id = some id → id ∉ second.object.references) :
    ∃ other later, Topology.addEntry topology second = .ok other ∧ Topology.addEntry other first = .ok later ∧
      last.Renumbers topology.tree.exchange later := by
  obtain ⟨firstFolder, firstStamp, hfirstFolder, hfirstNew, hfirstStamp, rfl⟩ := addEntry_eq_ok_iff.mp hfirst
  obtain ⟨secondFolder, secondStamp, hsecondFolder, hsecondNew, hsecondStamp, rfl⟩ := addEntry_eq_ok_iff.mp hsecond
  rw [(topology.sameShape_hookStamp ..).find?_eq] at hsecondFolder
  have hnew : ∀ id, second.id = some id → topology.stamp? id = none ∧ first.id ≠ some id := by
    intro id hid
    have hnone := hsecondNew id hid
    rw [stamp?_hookStamp, Option.or_eq_none_iff] at hnone
    obtain ⟨hunknown, hother⟩ := hnone
    refine ⟨hunknown, fun hname => ?_⟩
    rw [if_pos hname] at hother
    cases hother
  have hresolveSecond : ∀ id ∈ second.object.references,
      (topology.hookStamp firstFolder firstStamp first.id).resolve id = topology.resolve id := by
    intro id hid
    have hname : first.id ≠ some id := fun hname => hrefers id hname hid
    rw [resolve, stamp?_hookStamp, if_neg hname, Option.or_none]
    rfl
  rw [Object.resolve_congr hresolveSecond] at hsecondStamp
  have hother : Topology.addEntry topology second = .ok (topology.hookStamp secondFolder secondStamp second.id) :=
    addEntry_eq_ok_iff.mpr ⟨_, _, hsecondFolder, fun id hid => (hnew id hid).1, hsecondStamp, rfl⟩
  refine ⟨_, _, hother, addEntry_eq_ok_iff.mpr ⟨firstFolder, firstStamp, ?_, fun id hid => ?_, ?_, rfl⟩, ?_⟩
  · rw [(topology.sameShape_hookStamp ..).find?_eq, hfirstFolder]
  · have hname : second.id ≠ some id := fun hname => (hnew id hname).2 hid
    rw [stamp?_hookStamp, hfirstNew id hid, if_neg hname]
    rfl
  · exact resolve_hookStamp hfirstStamp
  · refine h.renumbers_exchange (fun heq => hfolders ?_) (h.wellFormed.find?_lt_size hfirstFolder)
      (h.wellFormed.find?_lt_size hsecondFolder) (h.hooked_of_resolve hfirstStamp)
      (h.hooked_of_resolve hsecondStamp) fun id hname hid => (hnew id hid).2 hname
    rw [hfirstFolder, hsecondFolder, heq]

end Pair

/-! ### Descriptions -/

theorem sameShape_of_foldlM {topology after : Topology} {entries : List Entry}
    (h : entries.foldlM addEntry topology = .ok after) : topology.tree.SameShape after.tree := by
  induction entries generalizing topology with
  | nil =>
    cases h
    exact ⟨rfl, fun _ => rfl, fun _ => rfl, fun _ => rfl, fun _ => rfl⟩
  | cons entry entries ih =>
    rw [List.foldlM_cons] at h
    obtain ⟨next, hadd, hrest⟩ := bind_eq_ok h
    obtain ⟨folder, stamp, -, -, -, rfl⟩ := addEntry_eq_ok_iff.mp hadd
    exact (topology.sameShape_hookStamp ..).trans (ih hrest)

namespace Description

variable {description : Description} {before after : List Entry} {first second : Entry}

/-- A description whose entries are exchanged can be loaded as well, and leads to the same topology under other numbers. -/
theorem exists_load_exchange (hentries : description.entries = before ++ first :: second :: after)
    {target : Option Version} {topology : Topology} (hload : description.load target = .ok topology)
    (hfolders : topology.tree.find? first.folder ≠ topology.tree.find? second.folder)
    (hrefers : ∀ id, first.id = some id → id ∉ second.object.references) :
    ∃ f other, load { description with entries := before ++ second :: first :: after } target = .ok other ∧
      topology.Renumbers f other := by
  obtain ⟨version, hversion, hbuild⟩ := bind_eq_ok hload
  rw [build, hentries, List.foldlM_append] at hbuild
  obtain ⟨start, hstart, hbuild⟩ := bind_eq_ok hbuild
  have hshape := sameShape_of_foldlM hbuild
  rw [hshape.find?_eq, hshape.find?_eq] at hfolders
  rw [List.foldlM_cons] at hbuild
  obtain ⟨mid, hfirst, hbuild⟩ := bind_eq_ok hbuild
  rw [List.foldlM_cons] at hbuild
  obtain ⟨last, hsecond, hrest⟩ := bind_eq_ok hbuild
  have hvalid := (description.valid_folderTree version).foldlM_addEntry hstart
  obtain ⟨other, later, hother, hlater, hrenumbers⟩ := hvalid.addEntry_exchange hfirst hsecond hfolders hrefers
  obtain ⟨final, hfinal, hsame⟩ := hrenumbers.foldlM_addEntry ((hvalid.addEntry hfirst).addEntry hsecond) hrest
  refine ⟨_, final, ?_, hsame⟩
  have hexchanged : List.foldlM addEntry { tree := description.folderTree version }
      (before ++ second :: first :: after) = .ok final := by
    simp only [List.foldlM_append, List.foldlM_cons, hstart, bind, Except.bind, hother, hlater, hfinal]
  change (description.chooseVersion target >>= fun version =>
    List.foldlM addEntry { tree := description.folderTree version } (before ++ second :: first :: after)) = _
  rw [hversion]
  exact hexchanged

/-- Two entries that follow each other, for different folders and without a reference of the later to the earlier one, may change places: the description can be loaded for the same targets, and the same text is generated or the same failure comes up, whatever is asked for. -/
theorem generate_exchange (hentries : description.entries = before ++ first :: second :: after)
    {target : Option Version} {topology : Topology} (hload : description.load target = .ok topology)
    (hfolders : topology.tree.find? first.folder ≠ topology.tree.find? second.folder)
    (hrefers : ∀ id, first.id = some id → id ∉ second.object.references) :
    let exchanged : Description := { description with entries := before ++ second :: first :: after }
    (∀ other loaded, description.load other = .ok loaded → ∃ later, exchanged.load other = .ok later) ∧
      ∀ options, exchanged.generate options = description.generate options := by
  intro exchanged
  have hloads (other : Option Version) (loaded : Topology) (hother : description.load other = .ok loaded) :
      ∃ f later, exchanged.load other = .ok later ∧ loaded.Renumbers f later := by
    obtain ⟨version, hversion, -⟩ := bind_eq_ok hother
    cases (load_of_chooseVersion hload hversion).symm.trans hother
    have hshape := topology.tree.sameShape_withContext (description.context version)
    refine exists_load_exchange hentries hother ?_ hrefers
    rwa [← hshape.find?_eq, ← hshape.find?_eq] at hfolders
  refine ⟨fun other loaded hother => ?_, fun options => ?_⟩
  · obtain ⟨f, later, hlater, -⟩ := hloads other loaded hother
    exact ⟨later, hlater⟩
  · cases hversion : description.chooseVersion options.target with
    | error e =>
      have hexchanged : exchanged.chooseVersion options.target = .error e := hversion
      rw [generate, generate, load_of_chooseVersion_error hversion, load_of_chooseVersion_error hexchanged]
    | ok version =>
      have hother := load_of_chooseVersion hload hversion
      obtain ⟨f, later, hlater, hrenumbers⟩ := hloads _ _ hother
      rw [generate, generate, hother, hlater]
      exact hrenumbers.generate (valid_of_load hother) options

/-- A node of the common partition. -/
def commonNode : Entry := { id := some "node", object := .node { address := "10.0.0.1" } }

/-- A VLAN of another partition. -/
def otherVlan : Entry := { folder := "Partition1", id := some "vlan", object := .vlan { name := "internal" } }

/-- A pool on the node. -/
def commonPool : Entry := { object := .pool { name := "web", members := [{ node := "node", port := 80 }] } }

/-- The two in one order, with the pool behind them. -/
def nodeThenVlan : Description where
  version := some "BIG-IP 11.5.0"
  partitions := 1
  entries := [commonNode, otherVlan, commonPool]

theorem generate_exchange_nodeThenVlan :
    let vlanThenNode : Description := { nodeThenVlan with entries := [otherVlan, commonNode, commonPool] }
    (∃ later, vlanThenNode.load none = .ok later) ∧ vlanThenNode.generate {} = nodeThenVlan.generate {} := by
  intro vlanThenNode
  have hloaded : ((nodeThenVlan.load none).toOption.map fun topology =>
      decide (topology.tree.find? commonNode.folder ≠ topology.tree.find? otherVlan.folder)) = some true := by
    decide +kernel
  obtain ⟨topology, htopology, hfolders⟩ := Option.map_eq_some_iff.mp hloaded
  have hload : nodeThenVlan.load none = .ok topology := by
    revert htopology
    cases nodeThenVlan.load none with
    | error e => exact nofun
    | ok loaded => exact fun h => congrArg Except.ok (Option.some.inj h)
  have hrefers : ∀ id, commonNode.id = some id → id ∉ otherVlan.object.references := fun _ _ => List.not_mem_nil
  have hentries : nodeThenVlan.entries = [] ++ commonNode :: otherVlan :: [commonPool] := rfl
  obtain ⟨hloads, hgenerate⟩ := generate_exchange hentries hload (of_decide_eq_true hfolders) hrefers
  exact ⟨hloads none topology hload, hgenerate {}⟩

end Description

end Topology

end ApplianceConfig
