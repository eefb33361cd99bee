import ApplianceConfig.Proofs.Compile.Modern
import ApplianceConfig.Proofs.Compile.Questions
import ApplianceConfig.Proofs.Render.Decomposition
import ApplianceConfig.Proofs.Tree.Paths

/-!
# References name what is written

A modern object that names another one does so by the key that it was given for a stamp. That stamp stands in a folder below the root, so the same rendering writes it, under this very key. Names without slashes make sure that no other stamp writes an object of this name.
-/

namespace ApplianceConfig

namespace Tree

/-! ### What a full rendering writes -/

/-- The stamps that a rendering of the whole tree writes. -/
def rendered (tree : Tree) : List StampId := tree.visitedStamps root true fun _ => true

theorem WellFormed.mem_rendered_iff {tree : Tree} (h : tree.WellFormed) (hanchored : tree.Anchored)
    {id : StampId} :
    id ∈ tree.rendered ↔ ∃ folder stamp, tree.stampFolder? id = some folder ∧ folder ≠ root ∧
      tree.stamp? id = some stamp ∧ stamp.builtIn = false := by
  rw [rendered, visitedStamps, visited_true]
  constructor
  · intro hid
    obtain ⟨folder, hfolder, hwanted⟩ := List.mem_flatMap.mp hid
    obtain ⟨hcontent, haccepts⟩ := List.mem_filter.mp hwanted
    obtain ⟨-, hroot⟩ := h.mem_preorder_root_iff.mp hfolder
    unfold accepts at haccepts
    cases hstamp : tree.stamp? id with
    | none =>
      rw [hstamp] at haccepts
      cases haccepts
    | some stamp =>
      rw [hstamp] at haccepts
      exact ⟨folder, stamp, (h.mem_content_iff folder id).mp hcontent, hroot, rfl, by simpa using haccepts⟩
  · rintro ⟨folder, stamp, hfolder, hroot, hstamp, hbuiltIn⟩
    refine List.mem_flatMap.mpr ⟨folder, h.mem_preorder_root_iff.mpr ⟨hanchored.lt_size hfolder, hroot⟩, ?_⟩
    refine List.mem_filter.mpr ⟨(h.mem_content_iff folder id).mpr hfolder, ?_⟩
    simp [accepts, hstamp, hbuiltIn]

/-- If a whole tree can be rendered, each of its stamps that is written has been compiled. -/
theorem outcome_of_rendered {tree : Tree} {history : tree.History} {indent : Nat} {text : String}
    (h : tree.renderAfter history root { indent } (fun _ => true) = .ok text) {id : StampId}
    (hid : id ∈ tree.rendered) : ∃ compiled, tree.outcome id = .ok compiled := by
  have hnone : failure? (tree.renderAfter history root { indent } fun _ => true) = none := by
    rw [h]
    rfl
  rw [failure?_renderAfter, List.findSome?_eq_none_iff] at hnone
  exact eq_ok_of_failure? (hnone id hid)

/-! ### Keys and objects -/

section Modern

variable {tree : Tree} (hversion : tree.context.atLeast .bigip 11 0 0 = true)

include hversion

theorem recipeOf_poses (slot : Slot) (folder : FolderId) :
    (tree.recipeOf slot folder).Poses (slot.stamp.questions tree.context) := by
  rw [recipeOf_of_modern (Dialect.modern_of_atLeast hversion)]
  exact slot.stamp.modernRecipe_poses (tree.scope folder slot.stamp.kind) _

/-- A key that a stamp takes is the answer to a question for one of its references. -/
theorem of_mem_taken {id target : StampId} {kind : Kind} {key : String} (h : (target, kind, key) ∈ tree.taken id) :
    ∃ slot ∈ tree.slots, target ∈ slot.stamp.references ∧
      tree.answer slot.stamp.kind target kind = .ok key := by
  unfold taken at h
  split at h
  · rename_i stamp folder hslot
    obtain ⟨hasked, hanswer⟩ := (recipeOf_poses hversion ⟨stamp, some folder⟩ folder).of_mem_taken h
    exact ⟨_, List.mem_of_getElem? hslot, Stamp.mem_references_of_question hasked, hanswer⟩
  · cases h

/-- A stamp that is compiled has taken a key for each of its questions. -/
theorem map_taken_of_outcome {id : StampId} {compiled : Compiled} (h : tree.outcome id = .ok compiled) :
    ∃ stamp, tree.stamp? id = some stamp ∧
      ((tree.taken id).map fun t => (t.1, t.2.1)) = stamp.questions tree.context := by
  obtain ⟨slot, hslot, hresult⟩ := exists_slot_of_outcome h
  obtain ⟨folder, output, hfolder, hrun, -⟩ := exists_output_of_result hresult
  obtain ⟨stamp, hooked⟩ := slot
  cases hfolder
  refine ⟨stamp, stamp?_of_slot hslot, ?_⟩
  unfold taken
  rw [hslot]
  exact (recipeOf_poses hversion ⟨stamp, some folder⟩ folder).map_taken hrun

end Modern

/-! ### References -/

/-- Compiling a stamp gives a document that has an object of a kind with a name. -/
def Defines (tree : Tree) (history : tree.History) (id : StampId) (kind : Kind) (name : String) : Prop :=
  ∃ compiled doc, (tree.compile id history.ledger).1 = .ok compiled ∧ compiled.value = some doc ∧
    doc.defines kind name = true

/-- All stamps that are referred to are hooked onto folders below the root. -/
def Hooked (tree : Tree) : Prop :=
  ∀ slot ∈ tree.slots, ∀ target ∈ slot.stamp.references, (tree.stampFolder? target).any (· != root) = true

instance (tree : Tree) : Decidable tree.Hooked :=
  inferInstanceAs (Decidable (∀ slot ∈ tree.slots, _))

/-- The folder that a stamp of a kind is hooked onto, and the name of its object. -/
def location? (tree : Tree) (kind : Kind) (id : StampId) : Option (FolderId × String) := do
  let slot ← tree.slot? id
  let folder ← slot.folder
  let name ← slot.stamp.objectName?
  if slot.stamp.kind = kind then some (folder, name) else none

/-- The objects of a kind have names that a path can end with. -/
def NamesObjects (tree : Tree) (kind : Kind) : Prop :=
  ∀ id < tree.slots.length, (tree.location? kind id).all (fun location => Text.isName location.2) = true

instance (tree : Tree) (kind : Kind) : Decidable (tree.NamesObjects kind) :=
  inferInstanceAs (Decidable (∀ id < tree.slots.length, _))

/-- No two stamps of a kind have both their folder and their name in common. -/
def TellsApart (tree : Tree) (kind : Kind) : Prop :=
  ∀ first < tree.slots.length, ∀ second < tree.slots.length, (tree.location? kind first).isSome = true →
    tree.location? kind first = tree.location? kind second → first = second

instance (tree : Tree) (kind : Kind) : Decidable (tree.TellsApart kind) :=
  inferInstanceAs (Decidable (∀ first < tree.slots.length, ∀ second < tree.slots.length, _))

/-- A stamp that defines an object others name is of its kind, and the name is the stamp's own behind the path of its folder. -/
theorem Defines.located {tree : Tree} {history : tree.History}
    (hversion : tree.context.atLeast .bigip 11 0 0 = true) {id : StampId} {kind : Kind} {key : String}
    (h : tree.Defines history id kind key) (hraw : (tree.stamp? id).map Stamp.kind ≠ some .raw)
    (hkind : kind.heading?.isSome = true) :
    ∃ folder name, tree.location? kind id = some (folder, name) ∧ id < tree.slots.length ∧
      folder < tree.size ∧ key = tree.path folder ++ "/" ++ name := by
  obtain ⟨compiled, doc, hcompile, hdoc, hdefines⟩ := h
  obtain ⟨heading, hheading⟩ := Option.isSome_iff_exists.mp hkind
  rw [history.eq_of_gives (Compile.gives_compile tree id)] at hcompile
  obtain ⟨slot, hslot, hresult⟩ := exists_slot_of_outcome hcompile
  have hnotRaw : slot.stamp.kind ≠ .raw := by
    intro hslotRaw
    rw [stamp?_of_slot hslot, Option.map_some, hslotRaw] at hraw
    exact hraw rfl
  obtain ⟨folder, hfolder, htitled⟩ := titled_of_result (Dialect.modern_of_atLeast hversion) hnotRaw hresult
  obtain ⟨rfl, hkey⟩ := (htitled.defines_iff doc hdoc kind heading hheading key).mp hdefines
  obtain ⟨-, name, hname, hpath⟩ := htitled.named key hkey heading hheading
  have hlocation : tree.location? slot.stamp.kind id = some (folder, name) := by
    simp [location?, hslot, hfolder, hname]
  have hhooked := (stampFolder?_of_slot hslot).trans hfolder
  exact ⟨folder, name, hlocation, (List.getElem?_eq_some_iff.mp hslot).1,
    history.valid.anchored.lt_size hhooked, hpath⟩

/-- Where names tell the stamps of a kind apart, an object is defined by one of them only. -/
theorem Defines.eq_of_named {tree : Tree} {history : tree.History}
    (hversion : tree.context.atLeast .bigip 11 0 0 = true) (hnamed : tree.Named) {kind : Kind}
    (hnames : tree.NamesObjects kind) (hapart : tree.TellsApart kind) {first second : StampId} {key : String}
    (hfirst : tree.Defines history first kind key)
    (hfirstRaw : (tree.stamp? first).map Stamp.kind ≠ some .raw)
    (hsecondRaw : (tree.stamp? second).map Stamp.kind ≠ some .raw) (hkind : kind.heading?.isSome = true)
    (hsecond : tree.Defines history second kind key) : first = second := by
  obtain ⟨folder, name, hlocation, hlength, hfolder, hpath⟩ := hfirst.located hversion hfirstRaw hkind
  obtain ⟨otherFolder, otherName, hotherLocation, hotherLength, hotherFolder, hotherPath⟩ :=
    hsecond.located hversion hsecondRaw hkind
  have hname := hnames first hlength
  have hotherName := hnames second hotherLength
  rw [hlocation, Option.all_some] at hname
  rw [hotherLocation, Option.all_some] at hotherName
  obtain ⟨rfl, rfl⟩ := history.wellFormed.path_name_inj hnamed hfolder hotherFolder hname hotherName
    (hpath.symm.trans hotherPath)
  refine hapart first hlength second hotherLength ?_ (hlocation.trans hotherLocation.symm)
  rw [hlocation]
  rfl

/-- A key that a stamp takes names an object of the stamp that it is taken from, which is written. -/
theorem defines_of_mem_taken {tree : Tree} (history : tree.History)
    (hversion : tree.context.atLeast .bigip 11 0 0 = true) (hhooked : tree.Hooked) {id target : StampId}
    {kind : Kind} {key : String} (htaken : (target, kind, key) ∈ tree.taken id)
    (hkind : kind.heading?.isSome = true) :
    target ∈ tree.rendered ∧ (tree.stamp? target).map Stamp.kind ≠ some .raw ∧
      tree.Defines history target kind key := by
  obtain ⟨asker, hasker, href, hanswer⟩ := of_mem_taken hversion htaken
  obtain ⟨slot, compiled, hslot, rfl, hresult, hkey⟩ := exists_result_of_answer hanswer
  have hstamp := stamp?_of_slot hslot
  obtain ⟨heading, hheading⟩ := Option.isSome_iff_exists.mp hkind
  have hraw : slot.stamp.kind ≠ .raw := by
    intro hslotRaw
    rw [hslotRaw] at hkind
    cases hkind
  have hbuiltIn : slot.stamp.builtIn = false := by
    cases hcase : slot.stamp <;> first | rfl | (rw [hcase] at hkind; cases hkind)
  refine ⟨?_, ?_, ?_⟩
  · obtain ⟨folder, hfolder, hroot⟩ := (Option.any_eq_true ..).mp (hhooked asker hasker target href)
    exact (history.wellFormed.mem_rendered_iff history.valid.anchored).mpr
      ⟨folder, slot.stamp, hfolder, bne_iff_ne.mp hroot, hstamp, hbuiltIn⟩
  · rw [hstamp]
    exact fun h => hraw (Option.some.inj h)
  · obtain ⟨folder, -, htitled⟩ := titled_of_result (Dialect.modern_of_atLeast hversion) hraw hresult
    obtain ⟨hvalue, -⟩ := htitled.named key hkey heading hheading
    obtain ⟨doc, hdoc⟩ := Option.isSome_iff_exists.mp hvalue
    have hcompile : (tree.compile target history.ledger).1 = .ok compiled := by
      rw [history.eq_of_gives (Compile.gives_compile tree target), outcome, hslot]
      exact hresult
    exact ⟨compiled, doc, hcompile, hdoc,
      (htitled.defines_iff doc hdoc _ heading hheading key).mpr ⟨rfl, hkey⟩⟩

/-- In a tree that can be rendered for a modern BIG-IP, each stamp that is written has taken a key for each of its questions, and those for the objects that others name are names of such objects in what is written. If names tell the stamps of the kind apart, only one stamp that is written defines the object, raw objects left aside. -/
theorem references_defined {tree : Tree} (history : tree.History)
    (hversion : tree.context.atLeast .bigip 11 0 0 = true) (hhooked : tree.Hooked) {indent : Nat}
    {text : String} (hrender : tree.renderAfter history root { indent } (fun _ => true) = .ok text)
    {id : StampId} (hid : id ∈ tree.rendered) :
    (∃ stamp, tree.stamp? id = some stamp ∧
      ((tree.taken id).map fun t => (t.1, t.2.1)) = stamp.questions tree.context) ∧
    ∀ target kind key, (target, kind, key) ∈ tree.taken id → kind.heading?.isSome = true →
      (∃ definer ∈ tree.rendered, tree.Defines history definer kind key) ∧
      (tree.Named → tree.NamesObjects kind → tree.TellsApart kind →
        ∃ definer ∈ tree.rendered, (tree.stamp? definer).map Stamp.kind ≠ some .raw ∧
          tree.Defines history definer kind key ∧
          ∀ other ∈ tree.rendered, (tree.stamp? other).map Stamp.kind ≠ some .raw →
            tree.Defines history other kind key → other = definer) := by
  obtain ⟨found, hfound⟩ := outcome_of_rendered hrender hid
  refine ⟨map_taken_of_outcome hversion hfound, fun target kind key htaken hkind => ?_⟩
  obtain ⟨htarget, hraw, hdefines⟩ := defines_of_mem_taken history hversion hhooked htaken hkind
  refine ⟨⟨target, htarget, hdefines⟩, fun hnamed hnames hapart => ⟨target, htarget, hraw, hdefines, ?_⟩⟩
  intro other hother hotherRaw hotherDefines
  exact hotherDefines.eq_of_named hversion hnamed hnames hapart hotherRaw hraw hkind hdefines

/-- A pool of one node, and a list of rules that matches addresses by a list of theirs. -/
def poolAndRules : List Operation := [
  .hookStamp 1 (.node { address := "10.0.0.1" }),
  .hookStamp 1 (.pool { name := "web", members := [{ node := 1, port := 80 }] }),
  .hookStamp 1 (.addressList { name := "hosts", addresses := ["10.1.0.0/16"] }),
  .hookStamp 1 (.ruleList { name := "rules", rules := [{ name := "r", source := { addressLists := [3] } }] })]

theorem references_defined_poolAndRules :
    let context : Context := { version := .release .bigip 11 5 0 }
    let history := History.ofSession context (some 0) poolAndRules
    let tree := (Session.runFrom context (some 0) poolAndRules).tree
    tree.taken 2 = [(1, .node, "/Common/10.0.0.1")] ∧ tree.taken 4 = [(3, .addressList, "/Common/hosts")] ∧
      ∃ definer ∈ tree.rendered, (tree.stamp? definer).map Stamp.kind ≠ some .raw ∧
        tree.Defines history definer .node "/Common/10.0.0.1" ∧
        ∀ other ∈ tree.rendered, (tree.stamp? other).map Stamp.kind ≠ some .raw →
          tree.Defines history other .node "/Common/10.0.0.1" → other = definer := by
  intro context history tree
  have hnode : tree.taken 2 = [(1, .node, "/Common/10.0.0.1")] := by decide +kernel
  have hlist : tree.taken 4 = [(3, .addressList, "/Common/hosts")] := by decide +kernel
  have hsucceeds : failure? (tree.renderAfter history root { indent := 4 } fun _ => true) = none := by
    decide +kernel
  have hrendered : 2 ∈ tree.rendered := by decide +kernel
  obtain ⟨text, hrender⟩ := eq_ok_of_failure? hsucceeds
  obtain ⟨-, hdefined⟩ :=
    references_defined history (by decide +kernel) (by decide +kernel) hrender hrendered
  obtain ⟨-, honly⟩ := hdefined 1 .node "/Common/10.0.0.1" (by rw [hnode]; exact List.mem_cons_self) rfl
  exact ⟨hnode, hlist, honly (by decide +kernel) (by decide +kernel) (by decide +kernel)⟩

end Tree

end ApplianceConfig
