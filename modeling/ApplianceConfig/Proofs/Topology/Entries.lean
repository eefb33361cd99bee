import ApplianceConfig.Proofs.Render.References
import ApplianceConfig.Proofs.Render.Repetition
import ApplianceConfig.Proofs.Topology.Exchange

/-!
# What becomes of entries

The stamps of a description's entries have the last numbers of its tree, in order. If the whole tree is rendered, each of them that has something to write is written once, as long as the folder of its entry has a name.

A folder text without a name in it leads to the root. It is accepted there, but the root is not visited, so nothing of the entry is in the text.
-/

namespace ApplianceConfig

namespace Tree

/-! ### Folders by paths -/

theorem lt_of_descend? {tree : Tree} {start id : FolderId} {names : List String} (hne : names ≠ [])
    (h : tree.descend? start names = some id) : start < id := by
  refine (descend?_induction (motive := fun id names => start ≤ id ∧ (names ≠ [] → start < id)) h
    ⟨Nat.le_refl start, absurd rfl⟩ ?_).2 hne
  rintro id names name next ⟨hle, -⟩ hchild
  have hlt := Nat.lt_of_le_of_lt hle (tree.child_gt_of_folder (mem_children_of_child? hchild)).1
  exact ⟨Nat.le_of_lt hlt, fun _ => hlt⟩

/-- Only a path without names leads to the root. -/
theorem ne_root_iff_of_find? {tree : Tree} {path : String} {folder : FolderId} (h : tree.find? path = some folder) :
    folder ≠ root ↔ Text.segments path ≠ [] := by
  constructor
  · intro hroot hnil
    rw [find?, hnil] at h
    cases h
    exact hroot rfl
  · intro hne
    exact Nat.ne_of_gt (lt_of_descend? hne h)

/-! ### Pieces of a text -/

/-- What a stamp adds to a text when nothing has been compiled before. -/
def addition? (tree : Tree) (indent : Nat) (id : StampId) : Option String :=
  match (tree.compile id {}).1 with
  | .ok compiled => compiled.addition? indent
  | .error _ => none

/-- What some stamps add to a text, each with the stamp that it is of. -/
def piecesOf (tree : Tree) (indent : Nat) (ids : List StampId) : List (StampId × String) :=
  ids.filterMap fun id => (tree.addition? indent id).map (id, ·)

/-- The pieces that a rendering of the whole tree is put together from. -/
def pieces (tree : Tree) (indent : Nat) : List (StampId × String) := tree.piecesOf indent tree.rendered

section Pieces

variable {tree : Tree} {indent : Nat}

theorem addition?_of_outcome {id : StampId} {compiled : Compiled} (h : tree.outcome id = .ok compiled) :
    tree.addition? indent id = compiled.addition? indent := by
  have hcompile : (tree.compile id {}).1 = .ok compiled :=
    (Compile.gives_compile tree id {} (Ledger.sound_empty tree) rfl).1.trans h
  rw [addition?, hcompile]

theorem mem_pieces_iff {id : StampId} {text : String} :
    (id, text) ∈ tree.pieces indent ↔ id ∈ tree.rendered ∧ tree.addition? indent id = some text := by
  simp [pieces, piecesOf, List.mem_filterMap]

theorem map_fst_piecesOf (ids : List StampId) :
    (tree.piecesOf indent ids).map Prod.fst = ids.filter fun id => (tree.addition? indent id).isSome := by
  induction ids with
  | nil => rfl
  | cons id ids ih =>
    rw [piecesOf] at ih ⊢
    cases hadds : tree.addition? indent id <;> simp [hadds, ih]

theorem map_snd_piecesOf {ids : List StampId} {compiled : List Compiled} (h : Found tree.outcome ids compiled) :
    (tree.piecesOf indent ids).map Prod.snd = compiled.filterMap (Compiled.addition? indent) := by
  induction ids generalizing compiled with
  | nil =>
    cases h
    rfl
  | cons id ids ih =>
    obtain ⟨first, rest, hfirst, hrest, rfl⟩ := h.of_cons
    rw [List.filterMap_cons, ← ih hrest, piecesOf, List.filterMap_cons, addition?_of_outcome hfirst]
    cases first.addition? indent <;> rfl

theorem join_piecesOf {ids : List StampId} {text : String} (h : tree.textOf indent ids = .ok text) :
    text = String.join ((tree.piecesOf indent ids).map Prod.snd) := by
  rw [textOf_eq_additions] at h
  cases hcompiled : ids.mapM tree.outcome with
  | error e =>
    rw [hcompiled] at h
    cases h
  | ok compiled =>
    rw [hcompiled] at h
    cases h
    rw [map_snd_piecesOf hcompiled]

end Pieces

end Tree

namespace Topology

/-! ### Stamps of entries -/

/-- The later topology has the folders, the stamps and the ids of the earlier one, at the same places. -/
structure Extends (topology after : Topology) : Prop where
  shape : topology.tree.SameShape after.tree
  slot : ∀ {id slot}, topology.tree.slot? id = some slot → after.tree.slot? id = some slot
  resolve : ∀ {object : Object} {stamp}, object.resolve topology.resolve = .ok stamp →
    object.resolve after.resolve = .ok stamp

theorem extends_hookStamp (topology : Topology) (folder : FolderId) (stamp : Stamp) (name : Option EntryId) :
    topology.Extends (topology.hookStamp folder stamp name) where
  shape := topology.sameShape_hookStamp folder stamp name
  slot := by
    intro id slot hslot
    have hid : id ≠ topology.tree.slots.length := Nat.ne_of_lt (List.getElem?_eq_some_iff.mp hslot).1
    rw [hookStamp, Tree.slot?_hookStamp, if_neg hid, hslot]
  resolve := resolve_hookStamp

theorem Extends.trans {a b c : Topology} (hab : a.Extends b) (hbc : b.Extends c) : a.Extends c where
  shape := hab.shape.trans hbc.shape
  slot := fun h => hbc.slot (hab.slot h)
  resolve := fun h => hbc.resolve (hab.resolve h)

theorem extends_of_foldlM {topology after : Topology} {entries : List Entry}
    (h : entries.foldlM addEntry topology = .ok after) :
    topology.Extends after ∧ after.tree.slots.length = topology.tree.slots.length + entries.length := by
  induction entries generalizing topology with
  | nil =>
    cases h
    exact ⟨⟨⟨rfl, fun _ => rfl, fun _ => rfl, fun _ => rfl, fun _ => rfl⟩, id, id⟩, rfl⟩
  | cons entry entries ih =>
    rw [List.foldlM_cons] at h
    obtain ⟨next, hadd, hrest⟩ := bind_eq_ok h
    obtain ⟨folder, stamp, -, -, -, rfl⟩ := addEntry_eq_ok_iff.mp hadd
    obtain ⟨hextends, hlength⟩ := ih hrest
    refine ⟨(topology.extends_hookStamp folder stamp entry.id).trans hextends, ?_⟩
    rw [hlength, length_hookStamp, List.length_cons]
    omega

/-- Each entry's stamp is hooked onto the entry's folder, behind the stamps of the entries before it. -/
theorem slot?_of_foldlM {topology after : Topology} {entries : List Entry}
    (h : entries.foldlM addEntry topology = .ok after) {k : Nat} {entry : Entry} (hentry : entries[k]? = some entry) :
    ∃ folder stamp, after.tree.find? entry.folder = some folder ∧
      entry.object.resolve after.resolve = .ok stamp ∧
      after.tree.slot? (topology.tree.slots.length + k) = some { stamp, folder := some folder } := by
  induction entries generalizing topology k with
  | nil => cases hentry
  | cons first entries ih =>
    rw [List.foldlM_cons] at h
    obtain ⟨next, hadd, hrest⟩ := bind_eq_ok h
    obtain ⟨folder, stamp, hfolder, -, hstamp, rfl⟩ := addEntry_eq_ok_iff.mp hadd
    cases k with
    | zero =>
      cases hentry
      obtain ⟨hextends, -⟩ := extends_of_foldlM hrest
      have hall := (topology.extends_hookStamp folder stamp entry.id).trans hextends
      refine ⟨folder, stamp, (hall.shape.find?_eq _).trans hfolder, hall.resolve hstamp, hextends.slot ?_⟩
      rw [hookStamp, Tree.slot?_hookStamp, Nat.add_zero, if_pos rfl]
    | succ k =>
      obtain ⟨folder, stamp, hfolder, hstamp, hslot⟩ := ih hrest hentry
      rw [length_hookStamp, Nat.add_assoc, Nat.add_comm 1] at hslot
      exact ⟨folder, stamp, hfolder, hstamp, hslot⟩

theorem nodup_contents_of_foldlM {topology after : Topology} (hvalid : topology.Valid)
    (hcontents : topology.tree.contents.Nodup) {entries : List Entry}
    (h : entries.foldlM addEntry topology = .ok after) : after.tree.contents.Nodup := by
  induction entries generalizing topology with
  | nil =>
    cases h
    exact hcontents
  | cons entry entries ih =>
    rw [List.foldlM_cons] at h
    obtain ⟨next, hadd, hrest⟩ := bind_eq_ok h
    refine ih (hvalid.addEntry hadd) ?_ hrest
    obtain ⟨folder, stamp, hfolder, -, -, rfl⟩ := addEntry_eq_ok_iff.mp hadd
    exact (hvalid.wellFormed.nodup_contents_hookStamp (hvalid.wellFormed.find?_lt_size hfolder) stamp).mpr hcontents

namespace Description

/-- The number of an entry's stamp in a topology that has been built. -/
def stampOf (description : Description) (topology : Topology) (k : Nat) : StampId :=
  topology.tree.slots.length - description.entries.length + k

theorem slot?_stampOf {description : Description} {target : Option Version} {topology : Topology}
    (h : description.load target = .ok topology) {k : Nat} {entry : Entry}
    (hentry : description.entries[k]? = some entry) :
    ∃ folder stamp, topology.tree.find? entry.folder = some folder ∧
      entry.object.resolve topology.resolve = .ok stamp ∧
      topology.tree.slot? (description.stampOf topology k) = some { stamp, folder := some folder } := by
  obtain ⟨version, -, hbuild⟩ := bind_eq_ok h
  obtain ⟨-, hlength⟩ := extends_of_foldlM hbuild
  rw [stampOf, hlength, Nat.add_sub_cancel]
  exact slot?_of_foldlM hbuild hentry

theorem nodup_contents_of_load {description : Description} {target : Option Version} {topology : Topology}
    (h : description.load target = .ok topology) : topology.tree.contents.Nodup := by
  obtain ⟨version, -, hbuild⟩ := bind_eq_ok h
  exact nodup_contents_of_foldlM (description.valid_folderTree version) (description.bare_folderTree version).nodup_contents
    hbuild

theorem textOf_of_generate {description : Description} {options : GenerationOptions} {text : String}
    (hpartition : options.partition = none) (hrecursive : options.render.recursive = true)
    (h : description.generate options = .ok text) :
    ∃ topology, description.load options.target = .ok topology ∧
      topology.tree.textOf options.render.indent topology.tree.rendered = .ok text := by
  unfold generate at h
  cases hload : description.load options.target with
  | error e =>
    rw [hload] at h
    cases h
  | ok topology =>
    simp only [hload] at h
    rw [generate_eq, hpartition] at h
    have hrendering : (topology.tree.rendering Tree.root options.render fun _ => true) =
        topology.tree.textOf options.render.indent topology.tree.rendered := by
      rw [Tree.rendered, ← hrecursive]
      rfl
    refine ⟨topology, rfl, ?_⟩
    rw [← hrendering]
    change Except.mapError _ _ = _ at h
    cases hrendered : topology.tree.rendering Tree.root options.render fun _ => true with
    | error e =>
      rw [hrendered] at h
      cases h
    | ok rendered =>
      rw [hrendered] at h
      cases h
      rfl

/-- A description that is generated as a whole gives the text of its stamps, none of them twice. The stamp of an entry is among them, if it has anything to write, exactly if it is not built in and the folder of the entry has a name in it. -/
theorem generate_pieces {description : Description} {options : GenerationOptions} {text : String}
    (hpartition : options.partition = none) (hrecursive : options.render.recursive = true)
    (hgenerate : description.generate options = .ok text) :
    ∃ topology, description.load options.target = .ok topology ∧
      let pieces := topology.tree.pieces options.render.indent
      text = String.join (pieces.map Prod.snd) ∧ (pieces.map Prod.fst).Nodup ∧
        ∀ k entry, description.entries[k]? = some entry →
          let id := description.stampOf topology k
          ∃ stamp, entry.object.resolve topology.resolve = .ok stamp ∧ topology.tree.stamp? id = some stamp ∧
            ∀ compiled doc, (topology.tree.compile id {}).1 = .ok compiled → compiled.value = some doc →
              doc.isEmpty = false →
                ((id, doc.encode options.render.indent) ∈ pieces ↔
                  stamp.builtIn = false ∧ Text.segments entry.folder ≠ []) := by
  obtain ⟨topology, hload, htext⟩ := textOf_of_generate hpartition hrecursive hgenerate
  have hvalid := valid_of_load hload
  have hcontents := nodup_contents_of_load hload
  refine ⟨topology, hload, Tree.join_piecesOf htext, ?_, fun k entry hentry => ?_⟩
  · rw [Tree.pieces, Tree.map_fst_piecesOf]
    exact (hvalid.wellFormed.nodup_visitedStamps hcontents _ _ _).filter _
  obtain ⟨folder, stamp, hfolder, hstamp, hslot⟩ := slot?_stampOf hload hentry
  refine ⟨stamp, hstamp, Tree.stamp?_of_slot hslot, fun compiled doc hcompile hdoc hnonempty => ?_⟩
  have haddition : topology.tree.addition? options.render.indent (description.stampOf topology k) =
      some (doc.encode options.render.indent) := by
    simp [Tree.addition?, hcompile, Compiled.addition?, Compiled.isEmpty, hdoc, hnonempty]
  rw [Tree.mem_pieces_iff, and_iff_left haddition, hvalid.wellFormed.mem_rendered_iff hvalid.anchored,
    ← Tree.ne_root_iff_of_find? hfolder, Tree.stampFolder?_of_slot hslot, Tree.stamp?_of_slot hslot]
  constructor
  · rintro ⟨_, _, ⟨⟩, hroot, ⟨⟩, hbuiltIn⟩
    exact ⟨hbuiltIn, hroot⟩
  · rintro ⟨hbuiltIn, hroot⟩
    exact ⟨folder, stamp, rfl, hroot, rfl, hbuiltIn⟩

/-- A name server for the root. -/
def rootOnly : Description where
  version := some "bigip 10.2.0"
  entries := [{ folder := "/", object := .dns { servers := ["10.0.0.2"] } }]

/-- A time server behind it, for the common partition. -/
def rootThenCommon : Description :=
  { rootOnly with
    entries := rootOnly.entries ++ [{ folder := "//Common/", object := .ntp { servers := ["10.0.0.3"] } }] }

theorem generate_pieces_rootThenCommon :
    ∃ topology text, rootThenCommon.load none = .ok topology ∧ rootThenCommon.generate {} = .ok text ∧
      let pieces := topology.tree.pieces 4
      text = String.join (pieces.map Prod.snd) ∧ (pieces.map Prod.fst).Nodup ∧
        ∃ doc : Document, doc.isEmpty = false ∧ (rootThenCommon.stampOf topology 1, doc.encode 4) ∈ pieces := by
  have hok : (rootThenCommon.generate {}).isOk = true := by decide +kernel
  have hvalue : (rootThenCommon.load none).toOption.all fun topology =>
      ((topology.tree.compile (rootThenCommon.stampOf topology 1) {}).1.toOption.bind Compiled.value).any
        fun doc => !doc.isEmpty := by decide +kernel
  cases hgenerate : rootThenCommon.generate {} with
  | error e =>
    rw [hgenerate] at hok
    cases hok
  | ok text =>
    obtain ⟨topology, hload, htext, hnodup, hentries⟩ := generate_pieces rfl rfl hgenerate
    refine ⟨topology, text, hload, rfl, htext, hnodup, ?_⟩
    obtain ⟨stamp, hstamp, -, hpieces⟩ := hentries 1 _ rfl
    cases hstamp
    have hload' : rootThenCommon.load none = .ok topology := hload
    rw [hload'] at hvalue
    cases hcompile : (topology.tree.compile (rootThenCommon.stampOf topology 1) {}).1 with
    | error e => simp [hcompile, Except.toOption] at hvalue
    | ok compiled =>
      cases hdoc : compiled.value with
      | none => simp [hcompile, hdoc, Except.toOption] at hvalue
      | some doc =>
        have hnonempty : doc.isEmpty = false := by simpa [hcompile, hdoc, Except.toOption] using hvalue
        exact ⟨doc, hnonempty, (hpieces compiled doc hcompile hdoc hnonempty).mpr ⟨rfl, by decide +kernel⟩⟩

/-- The root takes a name server that is written nowhere. -/
theorem generate_rootOnly :
    ∃ text encoding : String, (rootOnly.generate {}).toOption = some text ∧
      ((rootOnly.load none).toOption.bind fun topology => topology.tree.addition? 4 (rootOnly.stampOf topology 0)) =
        some encoding ∧
      ((rootOnly.load none).toOption.bind fun topology => topology.tree.stamp? (rootOnly.stampOf topology 0)).map
        Stamp.builtIn = some false ∧
      ¬ encoding.toList <:+: text.toList := by
  refine ⟨"partition Common \x7b\n    description \"This is partition 0\"\n\x7d\nshell write partition Common\n",
    "dns \x7b\n    nameservers\n    10.0.0.2\n\x7d\n", ?_, ?_, ?_, ?_⟩
  all_goals decide +kernel

end Description

end Topology

end ApplianceConfig
