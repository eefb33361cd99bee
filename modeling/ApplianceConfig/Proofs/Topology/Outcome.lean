import ApplianceConfig.Generation
import ApplianceConfig.Proofs.Compile.Faults
import ApplianceConfig.Proofs.Topology.Building

/-!
# What can come of a topology

A topology that has been loaded can be written for each version, unless a partition is asked for that is not there or a stamp does not compile. All stamps that others name are there and hooked, so what is wrong then is a stamp of another kind than its name is used for, one that has no key, or a text that is no address. References may lead to it through other stamps, and the failure says so.
-/

namespace ApplianceConfig

namespace CompileError

/-- The failure at the end of a chain of references. -/
def origin : CompileError → CompileError
  | .reference _ source => source.origin
  | e => e

/-- Holds of a stamp of another kind, one without a key, and a text that is no address, whichever references lead to them. -/
def isMismatch (e : CompileError) : Bool :=
  match e.origin with
  | .unexpectedKind .. | .noReferenceKey _ | .invalidAddress _ => true
  | _ => false

end CompileError

namespace Tree

/-- Where stamps refer to hooked stamps only, each failure is a mismatch. -/
theorem RefersBack.covered {tree : Tree} (h : tree.RefersBack) : tree.Covered fun e => e.isMismatch = true where
  fault := by
    intro slot hslot folder e hfault
    obtain ⟨id, hid⟩ := List.mem_iff_getElem?.mp hslot
    have hhooked {target : StampId} {kind : Kind} (huse : (target, kind) ∈ slot.stamp.uses) :
        ∃ folder, tree.stampFolder? target = some folder := by
      have hreference := Stamp.mem_references_iff.mpr (List.mem_map.mpr ⟨_, huse, rfl⟩)
      exact (h id slot.stamp (stamp?_of_slot hid) target hreference).2
    cases hfault with
    | missing huse hmissing =>
      obtain ⟨folder, hfolder⟩ := hhooked huse
      obtain ⟨other, hother, -⟩ := Option.bind_eq_some_iff.mp hfolder
      cases hmissing.symm.trans (stamp?_of_slot hother)
    | unhooked huse htarget hpath =>
      obtain ⟨folder, hfolder⟩ := hhooked huse
      cases hfolder.symm.trans (Option.map_eq_none_iff.mp hpath)
    | mistyped => rfl
    | address => rfl
    | nodeAddress => rfl
  unkeyed := fun _ _ _ _ => rfl
  referred := fun _ _ he => he

end Tree

namespace Topology

/-- A text is generated by rendering the tree from the folder that is asked for. -/
theorem generate_eq (topology : Topology) (options : GenerationOptions) :
    topology.generate options =
      topology.startFolder options.partition >>= fun start =>
        (topology.tree.rendering start options.render fun _ => true).mapError GenerationError.compile := by
  unfold generate Tree.renderAll
  cases topology.startFolder options.partition with
  | error e => rfl
  | ok start =>
    obtain ⟨hresult, -⟩ := Compile.gives_render topology.tree start options.render (fun _ => true) {}
      (Ledger.sound_empty topology.tree) rfl
    simp only [bind, Except.bind, ← hresult]
    generalize topology.tree.render start options.render (fun _ => true) {} = rendered
    obtain ⟨_ | text, ledger⟩ := rendered <;> rfl

theorem startFolder_eq_error {topology : Topology} {partition : Option String} {e : GenerationError}
    (h : topology.startFolder partition = .error e) :
    ∃ name, partition = some name ∧ topology.tree.partition? name = none ∧ e = .unknownPartition name := by
  unfold startFolder at h
  split at h
  · cases h
  · split at h
    · cases h
    · cases h
      exact ⟨_, rfl, ‹_›, rfl⟩

/-- What comes of a topology: a text, or a failure for a partition that is asked for and not there, or a mismatch in a stamp. -/
theorem Valid.generate {topology : Topology} (h : topology.Valid) (options : GenerationOptions) :
    (∃ text, topology.generate options = .ok text) ∨
      (∃ name, options.partition = some name ∧ topology.tree.partition? name = none ∧
        topology.generate options = .error (.unknownPartition name)) ∨
      ∃ e, topology.generate options = .error (.compile e) ∧ e.isMismatch = true := by
  rw [generate_eq]
  cases hstart : topology.startFolder options.partition with
  | error e =>
    obtain ⟨name, hname, hpartition, rfl⟩ := startFolder_eq_error hstart
    exact .inr (.inl ⟨name, hname, hpartition, rfl⟩)
  | ok start =>
    have hsettles := h.refersBack.covered.rendering h.wellFormed.toFiled start options.render fun _ => true
    change (∃ text, Except.mapError _ _ = _) ∨ _ ∨ ∃ e, Except.mapError _ _ = _ ∧ _
    cases hrendering : topology.tree.rendering start options.render fun _ => true with
    | ok text => exact .inl ⟨text, rfl⟩
    | error e =>
      rw [hrendering] at hsettles
      exact .inr (.inr ⟨e, rfl, hsettles⟩)

namespace Description

/-- A description that can be loaded for one version can be loaded for each other one. Its stamps then refer back to hooked stamps, and the generation fails only for a partition that is not there or for a mismatch. -/
theorem generate_of_load {description : Description} {target : Option Version} {loaded : Topology}
    (hload : description.load target = .ok loaded) (options : GenerationOptions) :
    (∃ e, description.chooseVersion options.target = .error e ∧
        description.generate options = .error (.topology e)) ∨
      ∃ topology, description.load options.target = .ok topology ∧ topology.tree.RefersBack ∧
        ((∃ text, description.generate options = .ok text) ∨
          (∃ name, options.partition = some name ∧ topology.tree.partition? name = none ∧
            description.generate options = .error (.unknownPartition name)) ∨
          ∃ e, description.generate options = .error (.compile e) ∧ e.isMismatch = true) := by
  cases hversion : description.chooseVersion options.target with
  | error e =>
    exact .inl ⟨e, rfl, by rw [generate, load_of_chooseVersion_error hversion]⟩
  | ok version =>
    have hother := load_of_chooseVersion hload hversion
    have hvalid := valid_of_load hother
    refine .inr ⟨_, hother, hvalid.refersBack, ?_⟩
    rw [generate, hother]
    exact hvalid.generate options

/-- A pool whose member is a VLAN. -/
def mistypedMember : Description where
  version := some "BIG-IP 11.5.0"
  entries := [
    { id := some "internal", object := .vlan { name := "internal" } },
    { object := .pool { name := "web", members := [{ node := "internal", port := 80 }] } }]

theorem generate_of_load_mistypedMember :
    let options : GenerationOptions := { target := some (.release .bigip 10 2 0) }
    (mistypedMember.load none).isOk = true ∧
      ∃ e, mistypedMember.generate options = .error (.compile e) ∧ e.isMismatch = true := by
  intro options
  have hok : (mistypedMember.load none).isOk = true := by decide +kernel
  refine ⟨hok, ?_⟩
  cases hload : mistypedMember.load none with
  | error e =>
    rw [hload] at hok
    cases hok
  | ok loaded =>
    rcases generate_of_load hload options with ⟨e, hversion, -⟩ | ⟨topology, -, -, hoptions⟩
    · cases hversion
    · rcases hoptions with ⟨text, htext⟩ | ⟨name, hname, -⟩ | hmismatch
      · have hfails : (mistypedMember.generate options).isOk = false := by decide +kernel
        rw [htext] at hfails
        cases hfails
      · cases hname
      · exact hmismatch

end Description

end Topology

end ApplianceConfig
