import ApplianceConfig.Proofs.Compile.Modern
import ApplianceConfig.Proofs.Compile.Spelling
import ApplianceConfig.Proofs.Document.Readable
import ApplianceConfig.Proofs.Render.Decomposition
import ApplianceConfig.Proofs.Tree.Paths

/-!
# Modern texts can be read

When folders and stamps are given words, what a stamp sees of the tree and the keys that it takes are words. So each stamp is written as a document that is spelled in words, whatever passwords users have. The text of such a document is read line by line, and the texts of the stamps of a rendering can be read one behind another.
-/

namespace ApplianceConfig

open Grammar

/-- Holds of stamps whose raw documents, if they are raw, can be read back from their texts. -/
def Stamp.isReadable (indent : Nat) : Stamp → Bool
  | .raw object => (Document.parse (object.document.encode indent)).isOk
  | _ => true

theorem Stamp.mem_texts_of_objectName? {stamp : Stamp} {name : String} (h : stamp.objectName? = some name) :
    name ∈ stamp.texts := by
  cases stamp <;> cases h <;> simp [texts]

/-- Of the kinds that others refer to, a modern stamp is referred to by one of its texts behind the path of its folder. -/
theorem Stamp.modernRecipe_key {stamp : Stamp} (h : stamp.kind.isReferredTo = true) (scope : Scope) :
    (stamp.modernRecipe scope (Template.document stamp.kind .modern)).Ensures (fun _ _ => True)
      fun output => ∀ key, output.key = some key → ∃ name ∈ stamp.texts, key = scope.path name := by
  cases hheading : stamp.kind.heading? with
  | some heading =>
    have hraw : stamp.kind ≠ .raw := by
      intro hraw
      rw [hraw] at h
      cases h
    refine (stamp.modernRecipe_titled hraw scope).mono fun output htitled key hkey => ?_
    obtain ⟨-, name, hname, hpath⟩ := htitled.named key hkey heading hheading
    exact ⟨name, mem_texts_of_objectName? hname, hpath⟩
  | none =>
    cases stamp with
    | vlan vlan =>
      refine .ofExcept ((Yields.trivial _).bind fun doc _ => .ok ?_)
      rintro key ⟨⟩
      exact ⟨vlan.name, List.mem_cons_self, rfl⟩
    | node | pool | addressList | portList | ruleList => cases hheading
    | _ => cases h

/-- The documents of modern stamps made of words can be read back from their texts. -/
theorem Stamp.modernRecipe_readable {stamp : Stamp} (h : Worded stamp.texts) {indent : Nat}
    (hreadable : stamp.isReadable indent = true) {scope : Scope} (hscope : scope.InWords) :
    (stamp.modernRecipe scope (Template.document stamp.kind .modern)).Ensures WordedKey fun output =>
      ∀ doc, output.value = some doc → ∃ again, Document.parse (doc.encode indent) = .ok again := by
  by_cases hraw : stamp.kind = .raw
  · cases stamp with
    | raw object =>
      rintro doc ⟨⟩
      rw [isReadable] at hreadable
      cases hparse : Document.parse (object.document.encode indent) with
      | ok again => exact ⟨again, rfl⟩
      | error e =>
        rw [hparse] at hreadable
        cases hreadable
    | _ => cases hraw
  · refine (modernRecipe_spelled h hraw hscope).mono fun output hspelled doc hdoc => ?_
    exact Document.exists_parse_encode (hspelled doc hdoc) indent

namespace Tree

/-- All folders but the root have words for names, and all texts of stamps are words. -/
structure InWords (tree : Tree) : Prop where
  folders : ∀ id < tree.size, id ≠ root → isBare (tree.folder id).name = true
  stamps : ∀ slot ∈ tree.slots, Worded slot.stamp.texts

instance (tree : Tree) : Decidable tree.InWords :=
  decidable_of_iff ((∀ id < tree.size, id ≠ root → isBare (tree.folder id).name = true) ∧
    ∀ slot ∈ tree.slots, Worded slot.stamp.texts) ⟨fun h => ⟨h.1, h.2⟩, fun h => ⟨h.folders, h.stamps⟩⟩

/-- All raw documents can be read back from their texts. -/
def RawReadable (tree : Tree) (indent : Nat) : Prop := ∀ slot ∈ tree.slots, slot.stamp.isReadable indent = true

instance (tree : Tree) (indent : Nat) : Decidable (tree.RawReadable indent) :=
  inferInstanceAs (Decidable (∀ slot ∈ tree.slots, _))

/-! ### What stamps see -/

theorem not_isRoot_partitionOf {tree : Tree} {id : FolderId} (h : ¬ (tree.folder id).isRoot = true) :
    ¬ (tree.folder (tree.partitionOf id)).isRoot = true := by
  induction id using Nat.strongRecOn with
  | ind id ih =>
    obtain ⟨parent, hparent⟩ := exists_parent_of_not_isRoot h
    rw [partitionOf_eq, hparent]
    by_cases hroot : (tree.folder parent).isRoot = true
    · simp only [if_pos hroot]
      exact h
    · simp only [if_neg hroot]
      exact ih parent (tree.parent_lt_of_folder hparent) hroot

namespace InWords

variable {tree : Tree} (h : tree.InWords)

include h

theorem name_of_parent {id parent : FolderId} (hparent : (tree.folder id).parent = some parent) :
    isBare (tree.folder id).name = true := by
  have hroot : id ≠ root := by
    rintro rfl
    exact Nat.not_lt_zero parent (tree.parent_lt_of_folder hparent)
  exact h.folders id (lt_size_of_parent hparent) hroot

theorem isWordText_path (id : FolderId) : isWordText (tree.path id) = true :=
  tree.path_induction (isWordText · = true) rfl
    (fun _ _ hparent hbefore => isWordText_of_isBare (isBare_path hbefore (h.name_of_parent hparent))) id

/-- What a stamp sees from a folder below the root is made of words. -/
theorem scope {folder : FolderId} (hroot : ¬ (tree.folder folder).isRoot = true) (kind : Kind) :
    (tree.scope folder kind).InWords where
  folderPath := by
    obtain ⟨parent, hparent⟩ := exists_parent_of_not_isRoot hroot
    change isBare (tree.path folder) = true
    rw [path_of_parent hparent]
    exact isBare_path (h.isWordText_path parent) (h.name_of_parent hparent)
  partitionName := by
    obtain ⟨parent, hparent⟩ := exists_parent_of_not_isRoot (not_isRoot_partitionOf hroot)
    exact h.name_of_parent hparent
  stamps := by
    intro id stamp hstamp
    obtain ⟨slot, hslot, rfl⟩ := Option.map_eq_some_iff.mp hstamp
    exact h.stamps slot (List.mem_of_getElem? hslot)
  hookPaths := by
    intro id path hpath
    obtain ⟨folder, -, rfl⟩ := Option.map_eq_some_iff.mp hpath
    exact h.isWordText_path folder

/-- The keys that stamps take are words, also those of stamps at the root. -/
theorem answer (hmodern : Dialect.ofVersion tree.context.version = .modern) (asker : Kind) (id : StampId)
    (kind : Kind) : Yields (WordedKey kind) (tree.answer asker id kind) := by
  intro key hkey hreferred
  obtain ⟨slot, compiled, hslot, rfl, hresult, hcompiled⟩ := exists_result_of_answer hkey
  obtain ⟨folder, output, -, hrun, rfl⟩ := exists_output_of_result hresult
  rw [recipeOf_of_modern hmodern] at hrun
  have hkeys := Stamp.modernRecipe_key hreferred (tree.scope folder slot.stamp.kind)
  obtain ⟨name, hname, rfl⟩ := hkeys.run (fun _ _ _ => .trivial _) output hrun key hcompiled
  exact isBare_path (h.isWordText_path folder) (h.stamps slot (List.mem_of_getElem? hslot) name hname)

end InWords

/-! ### What renderings write -/

/-- The stamps that a rendering writes are hooked below the root. -/
theorem WellFormed.of_mem_visitedStamps {tree : Tree} (h : tree.WellFormed) {start : FolderId}
    {recursive : Bool} {wanted : Stamp → Bool} {id : StampId}
    (hid : id ∈ tree.visitedStamps start recursive wanted) :
    ∃ folder, tree.stampFolder? id = some folder ∧ ¬ (tree.folder folder).isRoot = true := by
  obtain ⟨folder, hvisited, hwanted⟩ := List.mem_flatMap.mp hid
  obtain ⟨hcontent, -⟩ := List.mem_filter.mp hwanted
  refine ⟨folder, (h.mem_content_iff folder id).mp hcontent, ?_⟩
  cases recursive with
  | true =>
    rw [visited_true] at hvisited
    exact not_isRoot_of_mem_preorder hvisited
  | false =>
    rw [h.isRoot_iff (lt_size_of_mem_content hcontent)]
    rcases List.mem_append.mp hvisited with hself | hchild
    · rintro rfl
      by_cases hstart : start = root
      · simp [hstart] at hself
      · simp [hstart] at hself
        exact hstart hself.symm
    · exact Nat.ne_of_gt (Nat.lt_of_le_of_lt (Nat.zero_le start) (tree.child_gt_of_folder hchild).1)

section Modern

variable {tree : Tree} (hmodern : Dialect.ofVersion tree.context.version = .modern) (hwords : tree.InWords)
  {indent : Nat} (hraw : tree.RawReadable indent)

include hmodern hwords hraw

/-- The text of a stamp below the root can be read, and others can stand behind it. -/
theorem stampText_paragraph {id : StampId} {folder : FolderId} (hfolder : tree.stampFolder? id = some folder)
    (hroot : ¬ (tree.folder folder).isRoot = true) : Yields Paragraph (tree.stampText indent id) := by
  rw [stampText_eq]
  cases houtcome : tree.outcome id with
  | error e => exact .error e
  | ok compiled =>
    refine .ok ?_
    obtain ⟨slot, hslot, hresult⟩ := exists_slot_of_outcome houtcome
    obtain ⟨hooked, output, hhooked, hrun, rfl⟩ := exists_output_of_result hresult
    rw [stampFolder?_of_slot hslot, hhooked] at hfolder
    cases hfolder
    rw [recipeOf_of_modern hmodern] at hrun
    have hmem := List.mem_of_getElem? hslot
    have hreadable := Stamp.modernRecipe_readable (hwords.stamps slot hmem) (hraw slot hmem)
      (hwords.scope hroot slot.stamp.kind)
    have hdoc := hreadable.run (fun id kind _ => hwords.answer hmodern slot.stamp.kind id kind) output hrun
    unfold Compiled.text
    cases hvalue : output.value with
    | none => exact .empty
    | some doc => exact Document.paragraph_encode (hdoc doc hvalue)

end Modern

/-- When folders and stamps are given words, and raw documents can be read back, the text of a modern rendering can be read, whatever is rendered and whatever passwords users have. -/
theorem render_grammatical {tree : Tree} (history : tree.History)
    (hmodern : Dialect.ofVersion tree.context.version = .modern) (hwords : tree.InWords) {indent : Nat}
    (hraw : tree.RawReadable indent) {start : FolderId} {recursive : Bool} {wanted : Stamp → Bool}
    {text : String} (h : tree.renderAfter history start { indent, recursive } wanted = .ok text) :
    ∃ doc, Document.parse text = .ok doc := by
  have htexts : Yields (fun texts => ∀ text ∈ texts, Paragraph text)
      ((tree.visitedStamps start recursive wanted).mapM (tree.stampText indent)) := by
    refine .mapM fun id hid => ?_
    obtain ⟨folder, hfolder, hroot⟩ := history.wellFormed.of_mem_visitedStamps hid
    exact stampText_paragraph hmodern hwords hraw hfolder hroot
  rw [renderAfter_eq, textOf] at h
  cases hpieces : (tree.visitedStamps start recursive wanted).mapM (tree.stampText indent) with
  | error e =>
    rw [hpieces] at h
    cases h
  | ok pieces =>
    rw [hpieces] at h
    cases h
    exact (Paragraph.join (htexts pieces hpieces)).parses

/-- A node with two monitors, a user whose password has quotes, braces and a line feed in it, and a document of its own. -/
def monitorsAndPassword : List Operation := [
  .hookStamp 1 (.node { address := "10.0.0.1", monitors := ["icmp", "tcp"] }),
  .hookStamp 1 (.user { name := "guest", password := "\"a\" \x7b\n# \\" }),
  .hookStamp 1 (.raw { document := { entries := [("sys", .map .chained [("banner", .text "no entry")])] } })]

theorem render_grammatical_monitorsAndPassword :
    let context : Context := { version := .release .bigip 11 5 0 }
    let history := History.ofSession context (some 0) monitorsAndPassword
    let tree := (Session.runFrom context (some 0) monitorsAndPassword).tree
    ∃ text doc, tree.renderAfter history root { indent := 4 } (fun _ => true) = .ok text ∧
      Document.parse text = .ok doc := by
  intro context history tree
  have hsucceeds : failure? (tree.renderAfter history root { indent := 4 } fun _ => true) = none := by
    decide +kernel
  obtain ⟨text, hrender⟩ := eq_ok_of_failure? hsucceeds
  obtain ⟨doc, hparse⟩ :=
    render_grammatical history (by decide +kernel) (by decide +kernel) (by decide +kernel) hrender
  exact ⟨text, doc, hrender, hparse⟩

end Tree

end ApplianceConfig
