import ApplianceConfig.Proofs.Tree.Reachable
import ApplianceConfig.Proofs.Tree.Traversal

/-!
# Rendering piece by piece

The text of a folder is that of its own stamps, and then that of the folders in it. The pieces may be made one by one and whenever one likes, since what has been compiled before makes no difference to a text or to a failure. The first stamp on the way that fails is what a rendering fails with.
-/

namespace ApplianceConfig

section Failure

variable {α β : Type}

/-- What a computation fails with, if it fails. -/
def failure? : Except CompileError α → Option CompileError
  | .ok _ => none
  | .error e => some e

theorem eq_error_of_failure? {x : Except CompileError α} {e : CompileError} (h : failure? x = some e) :
    x = .error e := by
  cases x with
  | ok a => cases h
  | error other => exact congrArg Except.error (Option.some.inj h)

theorem eq_ok_of_failure? {x : Except CompileError α} (h : failure? x = none) : ∃ a, x = .ok a := by
  cases x with
  | ok a => exact ⟨a, rfl⟩
  | error e => cases h

theorem failure?_map (g : α → β) (x : Except CompileError α) : failure? (g <$> x) = failure? x := by
  cases x <;> rfl

/-- A list fails with what its first failing item fails with. -/
theorem failure?_mapM (f : α → Except CompileError β) (items : List α) :
    failure? (items.mapM f) = items.findSome? fun a => failure? (f a) := by
  induction items with
  | nil => rfl
  | cons a items ih =>
    rw [List.mapM_cons, List.findSome?_cons, ← ih]
    cases f a with
    | error e => rfl
    | ok b => exact failure?_map (b :: ·) (items.mapM f)

theorem mapM_map_result (f : α → Except CompileError β) {γ : Type} (g : β → γ) (items : List α) :
    (items.mapM fun a => g <$> f a) = List.map g <$> items.mapM f := by
  induction items with
  | nil => rfl
  | cons a items ih =>
    rw [List.mapM_cons, List.mapM_cons, ih]
    cases f a with
    | error e => rfl
    | ok b => cases items.mapM f <;> rfl

end Failure

namespace Compiled

/-- The text of a compiled stamp, empty when there is nothing to write. -/
def text (indent : Nat) (compiled : Compiled) : String :=
  match compiled.value with
  | some doc => doc.encode indent
  | none => ""

/-- What a compiled stamp adds to a text: the encoding of its document, if that holds anything. -/
def addition? (indent : Nat) (compiled : Compiled) : Option String :=
  if compiled.isEmpty then none else compiled.value.map fun doc => doc.encode indent

theorem getD_addition? (indent : Nat) (compiled : Compiled) :
    (compiled.addition? indent).getD "" = compiled.text indent := by
  unfold addition? isEmpty text
  cases compiled.value with
  | none => rfl
  | some doc =>
    obtain ⟨style, entries⟩ := doc
    cases entries <;> rfl

theorem join_additions (indent : Nat) (compiled : List Compiled) :
    String.join (compiled.filterMap (addition? indent)) = String.join (compiled.map (text indent)) := by
  induction compiled with
  | nil => rfl
  | cons c compiled ih =>
    rw [List.map_cons, String.join_cons, ← ih, ← getD_addition?]
    cases hadds : c.addition? indent with
    | none => rw [List.filterMap_cons_none hadds, Option.getD_none, String.empty_append]
    | some added => rw [List.filterMap_cons_some hadds, Option.getD_some, String.join_cons]

end Compiled

namespace Tree

variable (tree : Tree)

/-- The stamps of a folder that are to be written, in the order of hooking. -/
def wantedStamps (wanted : Stamp → Bool) (folder : FolderId) : List StampId :=
  (tree.folder folder).content.filter (tree.accepts wanted)

/-- The stamps that a rendering compiles, in its order. -/
def visitedStamps (start : FolderId) (recursive : Bool) (wanted : Stamp → Bool) : List StampId :=
  (tree.visited start recursive).flatMap (tree.wantedStamps wanted)

/-- The text of a folder's own stamps, each of which may be compiled after other things than the rest. -/
def ownText (indent : Nat) (wanted : Stamp → Bool) (before : StampId → tree.History)
    (folder : FolderId) : Except CompileError String := do
  let compiled ← (tree.wantedStamps wanted folder).mapM fun id => (tree.compile id (before id).ledger).1
  return String.join (compiled.filterMap (Compiled.addition? indent))

/-- What rendering gives when other things have been compiled before. -/
def renderAfter (history : tree.History) (start : FolderId) (options : RenderOptions)
    (wanted : Stamp → Bool) : Except CompileError String :=
  (tree.render start options wanted history.ledger).1

/-! ### Texts of lists of stamps -/

/-- The text of some stamps one after another. -/
def textOf (indent : Nat) (ids : List StampId) : Except CompileError String :=
  String.join <$> ids.mapM (tree.stampText indent)

theorem stampText_eq (indent : Nat) (id : StampId) :
    tree.stampText indent id = Compiled.text indent <$> tree.outcome id := by
  unfold stampText
  cases tree.outcome id with
  | error e => rfl
  | ok compiled =>
    obtain ⟨key, value, dialect⟩ := compiled
    cases value <;> rfl

theorem textOf_append (indent : Nat) (first rest : List StampId) :
    tree.textOf indent (first ++ rest) = do
      let text ← tree.textOf indent first
      let more ← tree.textOf indent rest
      return text ++ more := by
  unfold textOf
  rw [List.mapM_append]
  cases first.mapM (tree.stampText indent) with
  | error e => rfl
  | ok texts =>
    cases rest.mapM (tree.stampText indent) with
    | error e => rfl
    | ok more => exact congrArg Except.ok String.join_append

theorem textOf_flatMap (indent : Nat) {α : Type} (f : α → List StampId) (items : List α) :
    tree.textOf indent (items.flatMap f) =
      String.join <$> items.mapM fun item => tree.textOf indent (f item) := by
  induction items with
  | nil => rfl
  | cons item items ih =>
    rw [List.flatMap_cons, textOf_append, ih, List.mapM_cons]
    cases tree.textOf indent (f item) with
    | error e => rfl
    | ok text =>
      cases items.mapM fun item => tree.textOf indent (f item) with
      | error e => rfl
      | ok texts => exact congrArg Except.ok String.join_cons.symm

theorem failure?_textOf (indent : Nat) (ids : List StampId) :
    failure? (tree.textOf indent ids) = ids.findSome? fun id => failure? (tree.outcome id) := by
  have hstamp (id : StampId) : failure? (tree.stampText indent id) = failure? (tree.outcome id) := by
    rw [stampText_eq, failure?_map]
  rw [textOf, failure?_map, failure?_mapM]
  simp only [hstamp]

/-! ### Renderings -/

variable {tree}

theorem renderAfter_eq (history : tree.History) (start : FolderId) (options : RenderOptions)
    (wanted : Stamp → Bool) :
    tree.renderAfter history start options wanted =
      tree.textOf options.indent (tree.visitedStamps start options.recursive wanted) :=
  history.eq_of_gives (Compile.gives_render tree start options wanted)

theorem textOf_eq_additions (indent : Nat) (ids : List StampId) :
    tree.textOf indent ids =
      (fun compiled => String.join (compiled.filterMap (Compiled.addition? indent))) <$> ids.mapM tree.outcome := by
  have htext : tree.stampText indent = fun id => Compiled.text indent <$> tree.outcome id := by
    funext id
    exact tree.stampText_eq indent id
  rw [textOf, htext, mapM_map_result]
  cases ids.mapM tree.outcome with
  | error e => rfl
  | ok compiled => exact congrArg Except.ok (Compiled.join_additions indent compiled).symm

theorem ownText_eq (indent : Nat) (wanted : Stamp → Bool) (before : StampId → tree.History)
    (folder : FolderId) :
    tree.ownText indent wanted before folder = tree.textOf indent (tree.wantedStamps wanted folder) := by
  have hcompile : (fun id => (tree.compile id (before id).ledger).1) = tree.outcome := by
    funext id
    exact (before id).eq_of_gives (Compile.gives_compile tree id)
  rw [ownText, hcompile, textOf_eq_additions]
  cases (tree.wantedStamps wanted folder).mapM tree.outcome <;> rfl

theorem wantedStamps_of_size_le {folder : FolderId} (h : tree.size ≤ folder) (wanted : Stamp → Bool) :
    tree.wantedStamps wanted folder = [] := by
  rw [wantedStamps, folder_of_size_le h]
  rfl

theorem visited_true (start : FolderId) : tree.visited start true = tree.preorder start := tree.walk_singleton start

/-- A rendering of a subtree starts with the stamps of its folder, and goes on with the subtrees in it. -/
theorem visitedStamps_recursive (h : tree.Linked) (start : FolderId) (wanted : Stamp → Bool) :
    tree.visitedStamps start true wanted =
      (if start = root then [] else tree.wantedStamps wanted start) ++
        (tree.folder start).childIds.flatMap fun child => tree.visitedStamps child true wanted := by
  have hself : (if (tree.folder start).isRoot then [] else [start]).flatMap (tree.wantedStamps wanted) =
      if start = root then [] else tree.wantedStamps wanted start := by
    by_cases hsize : start < tree.size
    · have hroot := h.isRoot_iff hsize
      by_cases hstart : start = root
      · rw [if_pos hstart, if_pos (hroot.mpr hstart)]
        rfl
      · rw [if_neg hstart, if_neg fun hisRoot => hstart (hroot.mp hisRoot), List.flatMap_singleton]
    · rw [wantedStamps_of_size_le (Nat.le_of_not_lt hsize), ite_self, folder_of_size_le (Nat.le_of_not_lt hsize)]
      rfl
  simp only [visitedStamps, visited_true]
  rw [preorder_eq, List.flatMap_append, hself, List.flatMap_assoc]

theorem visitedStamps_direct (start : FolderId) (wanted : Stamp → Bool) :
    tree.visitedStamps start false wanted =
      (if start = root then [] else tree.wantedStamps wanted start) ++
        (tree.folder start).childIds.flatMap (tree.wantedStamps wanted) := by
  by_cases hstart : start = root <;> simp [visitedStamps, visited, enumerate, hstart]

/-- More wanted stamps are more stamps to compile. -/
theorem visitedStamps_subset {wanted more : Stamp → Bool} (h : ∀ stamp, wanted stamp = true → more stamp = true)
    (start : FolderId) (recursive : Bool) :
    tree.visitedStamps start recursive wanted ⊆ tree.visitedStamps start recursive more := by
  intro id hid
  obtain ⟨folder, hfolder, hwanted⟩ := List.mem_flatMap.mp hid
  obtain ⟨hcontent, haccepts⟩ := List.mem_filter.mp hwanted
  refine List.mem_flatMap.mpr ⟨folder, hfolder, List.mem_filter.mpr ⟨hcontent, ?_⟩⟩
  unfold accepts at haccepts ⊢
  cases hstamp : tree.stamp? id with
  | none =>
    rw [hstamp] at haccepts
    cases haccepts
  | some stamp =>
    rw [hstamp] at haccepts
    obtain ⟨hbuiltIn, hstampWanted⟩ := (Bool.and_eq_true ..).mp haccepts
    exact (Bool.and_eq_true ..).mpr ⟨hbuiltIn, h stamp hstampWanted⟩

theorem renderInto_of_error {history : tree.History} {start : FolderId} {options : RenderOptions}
    {wanted : Stamp → Bool} {e : CompileError}
    (h : tree.renderAfter history start options wanted = .error e) (buffer : String) :
    (tree.renderInto buffer start options wanted history.ledger).1 = buffer ∧
      (tree.renderInto buffer start options wanted history.ledger).2.1 = .error e := by
  unfold renderAfter at h
  unfold renderInto
  generalize tree.render start options wanted history.ledger = rendered at h ⊢
  obtain ⟨result, ledger⟩ := rendered
  subst h
  exact ⟨rfl, rfl⟩

theorem renderInto_of_ok {history : tree.History} {start : FolderId} {options : RenderOptions}
    {wanted : Stamp → Bool} {text : String}
    (h : tree.renderAfter history start options wanted = .ok text) (buffer : String) :
    (tree.renderInto buffer start options wanted history.ledger).1 = buffer ++ text ∧
      (tree.renderInto buffer start options wanted history.ledger).2.1 = .ok () := by
  unfold renderAfter at h
  unfold renderInto
  generalize tree.render start options wanted history.ledger = rendered at h ⊢
  obtain ⟨result, ledger⟩ := rendered
  subst h
  exact ⟨rfl, rfl⟩

theorem failure?_renderAfter (history : tree.History) (start : FolderId) (options : RenderOptions)
    (wanted : Stamp → Bool) :
    failure? (tree.renderAfter history start options wanted) =
      (tree.visitedStamps start options.recursive wanted).findSome? fun id => failure? (tree.outcome id) := by
  rw [renderAfter_eq, failure?_textOf]

/-- Rendering a folder gives the text of its own stamps, unless it is the root, and behind it that of the folders in it: of their subtrees, or only of their own stamps. Each piece may be made after other things than the whole. The first stamp that fails, if there is one, decides the failure, which leaves a buffer as it was. Wanting less does not make a rendering fail. -/
theorem render_decomposes (tree : Tree) (history : tree.History) (beforeStamp : StampId → tree.History)
    (beforeFolder : FolderId → tree.History) (start : FolderId) (indent : Nat) (wanted : Stamp → Bool) :
    let own := if start = root then .ok "" else tree.ownText indent wanted beforeStamp start
    (tree.renderAfter history start { indent, recursive := true } wanted = do
      let text ← own
      let below ← (tree.folder start).childIds.mapM fun child =>
        tree.renderAfter (beforeFolder child) child { indent, recursive := true } wanted
      return text ++ String.join below) ∧
    (tree.renderAfter history start { indent, recursive := false } wanted = do
      let text ← own
      let below ← (tree.folder start).childIds.mapM (tree.ownText indent wanted beforeStamp)
      return text ++ String.join below) ∧
    ∀ recursive,
      let options : RenderOptions := { indent, recursive }
      let failing? := (tree.visitedStamps start recursive wanted).findSome? fun id =>
        failure? (tree.compile id (beforeStamp id).ledger).1
      (∀ e, failing? = some e → tree.renderAfter history start options wanted = .error e ∧
        ∀ buffer, (tree.renderInto buffer start options wanted history.ledger).1 = buffer ∧
          (tree.renderInto buffer start options wanted history.ledger).2.1 = .error e) ∧
      (failing? = none → ∃ text, tree.renderAfter history start options wanted = .ok text ∧
        ∀ buffer, (tree.renderInto buffer start options wanted history.ledger).1 = buffer ++ text ∧
          (tree.renderInto buffer start options wanted history.ledger).2.1 = .ok ()) ∧
      ∀ more : Stamp → Bool, (∀ stamp, wanted stamp = true → more stamp = true) →
        ∀ text, tree.renderAfter (beforeFolder start) start options more = .ok text →
          ∃ less, tree.renderAfter history start options wanted = .ok less := by
  intro own
  have hlinked := history.wellFormed.toLinked
  have hown : own = tree.textOf indent (if start = root then [] else tree.wantedStamps wanted start) := by
    by_cases hstart : start = root
    · simp only [own, if_pos hstart]
      rfl
    · simp only [own, if_neg hstart, ownText_eq]
  refine ⟨?_, ?_, fun recursive => ?_⟩
  · rw [renderAfter_eq, visitedStamps_recursive hlinked, textOf_append, textOf_flatMap, hown]
    simp only [renderAfter_eq, bind_map_left]
  · rw [renderAfter_eq, visitedStamps_direct, textOf_append, textOf_flatMap, hown]
    have hbelow : tree.ownText indent wanted beforeStamp =
        fun child => tree.textOf indent (tree.wantedStamps wanted child) := by
      funext child
      exact ownText_eq ..
    simp only [hbelow, bind_map_left]
  · intro options failing?
    have hfailing : failing? = failure? (tree.renderAfter history start options wanted) := by
      have hcompile (id : StampId) : (tree.compile id (beforeStamp id).ledger).1 = tree.outcome id :=
        (beforeStamp id).eq_of_gives (Compile.gives_compile tree id)
      rw [failure?_renderAfter]
      simp only [failing?, hcompile, options]
    refine ⟨fun e he => ?_, fun hnone => ?_, fun more hmore text hok => ?_⟩
    · have hrender := eq_error_of_failure? (hfailing.symm.trans he)
      exact ⟨hrender, renderInto_of_error hrender⟩
    · obtain ⟨text, hrender⟩ := eq_ok_of_failure? (hfailing.symm.trans hnone)
      exact ⟨text, hrender, renderInto_of_ok hrender⟩
    · apply eq_ok_of_failure?
      have hsucceeds : failure? (tree.renderAfter (beforeFolder start) start options more) = none := by
        rw [hok]
        rfl
      rw [failure?_renderAfter, List.findSome?_eq_none_iff] at hsucceeds ⊢
      exact fun id hid => hsucceeds id (visitedStamps_subset hmore start recursive hid)

end Tree

end ApplianceConfig
