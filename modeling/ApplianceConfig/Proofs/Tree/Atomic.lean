import ApplianceConfig.Proofs.Tree.Reachable

/-!
# Changes that happen in whole or not at all

A tree is changed in small steps: a list is looked at stamp by stamp and then hooked stamp by stamp, and a new folder is entered with its parent before its marker is hooked. Here these steps are taken one after another on a session, and what was done before a failure stays done. Nothing has been done by then, because all that can fail comes first: a change that fails leaves the session as it was, wherever in a list the reason lies.
-/

namespace ApplianceConfig

/-! ### Hooking -/

namespace Tree

/-- The second tree is the first one with some stamps hooked onto a folder in their order, and nothing else is different. -/
structure HooksOnto (folder : FolderId) (ids : List StampId) (before after : Tree) : Prop where
  context : after.context = before.context
  size : after.size = before.size
  content : (after.folder folder).content = (before.folder folder).content ++ ids
  ofKind : ∀ kind, (after.folder folder).ofKind kind =
    (before.folder folder).ofKind kind ++ ids.filter fun id => (before.stamp? id).map Stamp.kind = some kind
  links : (after.folder folder).name = (before.folder folder).name ∧
    (after.folder folder).index = (before.folder folder).index ∧
    (after.folder folder).parent = (before.folder folder).parent ∧
    (after.folder folder).children = (before.folder folder).children
  others : ∀ other, other ≠ folder → after.folder other = before.folder other
  stamp? : ∀ id, after.stamp? id = before.stamp? id
  stampFolder? : ∀ id, after.stampFolder? id = if id ∈ ids then some folder else before.stampFolder? id

namespace HooksOnto

variable {folder : FolderId} {first second third : Tree}

theorem refl (tree : Tree) : HooksOnto folder [] tree tree where
  context := rfl
  size := rfl
  content := (List.append_nil _).symm
  ofKind := fun _ => (List.append_nil _).symm
  links := ⟨rfl, rfl, rfl, rfl⟩
  others := fun _ _ => rfl
  stamp? := fun _ => rfl
  stampFolder? := fun _ => rfl

theorem trans {ids more : List StampId} (h : HooksOnto folder ids first second)
    (hnext : HooksOnto folder more second third) : HooksOnto folder (ids ++ more) first third where
  context := hnext.context.trans h.context
  size := hnext.size.trans h.size
  content := by rw [hnext.content, h.content, List.append_assoc]
  ofKind := by
    intro kind
    simp only [hnext.ofKind, h.ofKind, h.stamp?, List.filter_append, List.append_assoc]
  links := by
    obtain ⟨hname, hindex, hparent, hchildren⟩ := h.links
    obtain ⟨hname', hindex', hparent', hchildren'⟩ := hnext.links
    exact ⟨hname'.trans hname, hindex'.trans hindex, hparent'.trans hparent, hchildren'.trans hchildren⟩
  others := fun other hother => (hnext.others other hother).trans (h.others other hother)
  stamp? := fun id => (hnext.stamp? id).trans (h.stamp? id)
  stampFolder? := by
    intro id
    rw [hnext.stampFolder?, h.stampFolder?]
    by_cases hmore : id ∈ more <;> simp [hmore]

theorem attach {tree : Tree} (hfolder : folder < tree.size) {id : StampId} {stamp : Stamp}
    (hstamp : tree.stamp? id = some stamp) : HooksOnto folder [id] tree (tree.attach folder id) where
  context := by
    unfold Tree.attach
    rw [hstamp]
  size := size_attach tree folder id
  content := by rw [content_attach hstamp hfolder, if_pos rfl]
  ofKind := by
    intro kind
    rw [folder_attach_eq hstamp hfolder, if_pos rfl, ofKind_hooked]
    by_cases hkind : kind = stamp.kind
    · simp [hstamp, hkind]
    · simp [hstamp, hkind, Ne.symm hkind]
  links := by
    rw [folder_attach_eq hstamp hfolder, if_pos rfl]
    exact ⟨rfl, rfl, rfl, rfl⟩
  others := fun other hother => by rw [folder_attach_eq hstamp hfolder, if_neg hother]
  stamp? := stamp?_attach tree folder id
  stampFolder? := by
    intro other
    rw [stampFolder?_attach_eq hstamp]
    simp only [List.mem_singleton, eq_comm]

theorem foldl_attach {tree : Tree} (hfolder : folder < tree.size) {ids : List StampId}
    (hids : ∀ id ∈ ids, ∃ stamp, tree.stamp? id = some stamp) :
    HooksOnto folder ids tree (ids.foldl (fun tree id => tree.attach folder id) tree) := by
  induction ids generalizing tree with
  | nil => exact refl tree
  | cons id ids ih =>
    obtain ⟨⟨stamp, hstamp⟩, hknown⟩ := List.forall_mem_cons.mp hids
    have hrest := @ih (tree.attach folder id) (by rwa [size_attach]) (by simpa only [stamp?_attach] using hknown)
    exact (attach hfolder hstamp).trans hrest

end HooksOnto

/-- Why a stamp cannot be hooked, if it cannot. -/
def refusal? (tree : Tree) (id : StampId) : Option TreeError :=
  match tree.slot? id with
  | none => some (.unknownStamp id)
  | some slot => slot.folder.map fun folder => .alreadyHooked id (tree.key folder)

theorem refusal?_eq_none_iff {tree : Tree} {id : StampId} :
    tree.refusal? id = none ↔ (∃ stamp, tree.stamp? id = some stamp) ∧ tree.stampFolder? id = none := by
  unfold refusal? stamp? stampFolder?
  cases tree.slot? id with
  | none => simp
  | some slot => simp

/-- What is wrong with a list is what is wrong with its first stamp that cannot be hooked. -/
theorem hookError?_eq_some_iff {tree : Tree} {ids : List StampId} {e : TreeError} :
    tree.hookError? ids = some e ↔ ∃ front id rest, ids = front ++ id :: rest ∧
      (∀ free ∈ front, tree.refusal? free = none) ∧ tree.refusal? id = some e := by
  change ids.findSome? tree.refusal? = some e ↔ _
  simp only [List.findSome?_eq_some_iff, and_comm]

theorem hook_eq_error_iff {tree : Tree} {folder : FolderId} {ids : List StampId} {e : TreeError} :
    tree.hook folder ids = .error e ↔ tree.hookError? ids = some e := by
  rw [hook]
  cases tree.hookError? ids <;> simp

end Tree

/-! ### Work on sessions -/

/-- Work on a session that may fail. What was done before a failure stays done. -/
abbrev Work := ExceptT TreeError (StateM Session)

namespace Work

variable {α β : Type}

/-- What the work comes to, and the session that it leaves behind. -/
def on (work : Work α) (session : Session) : Except TreeError α × Session := (work.run.run session).run

theorem on_bind (work : Work α) (next : α → Work β) (session : Session) :
    (work >>= next).on session = match work.on session with
      | (.ok a, after) => (next a).on after
      | (.error e, after) => (.error e, after) := by
  change (match work.on session with
    | (x, after) => (ExceptT.bindCont next x).run after) = _
  cases work.on session with
  | mk x after => cases x <;> rfl

/-- Fails if a stamp cannot be hooked. -/
def look (id : StampId) : Work Unit := do
  let session ← get
  match session.tree.slot? id with
  | none => throw (.unknownStamp id)
  | some slot =>
    match slot.folder with
    | none => return
    | some folder => throw (.alreadyHooked id (session.tree.key folder))

def change (f : Tree → Tree) : Work Unit := modify fun session => { session with tree := f session.tree }

/-- Looks at all stamps of a list and then hooks them one by one. -/
def hook (folder : FolderId) (ids : List StampId) : Work Unit := do
  ids.forM look
  ids.forM fun id => change (·.attach folder id)

/-- Enters a new folder with its parent, puts its marker into the tree and hooks that onto it. -/
def add (parent : FolderId) (name : String) : Work FolderId := do
  let tree := (← get).tree
  if Assoc.contains (tree.folder parent).children name then throw (.duplicateFolder (tree.key parent) name)
  if hparent : parent < tree.size then change fun _ => tree.grow parent name hparent
  change fun grown => (grown.insert (tree.marker parent)).2
  change (·.attach tree.size tree.slots.length)
  return tree.size

theorem on_look (id : StampId) (session : Session) :
    (look id).on session = match session.tree.refusal? id with
      | some e => (.error e, session)
      | none => (.ok (), session) := by
  change (match session.tree.slot? id with
    | none => throw (.unknownStamp id)
    | some slot => match slot.folder with
      | none => return
      | some folder => throw (.alreadyHooked id (session.tree.key folder)) : Work Unit).on session = _
  unfold Tree.refusal?
  cases session.tree.slot? id with
  | none => rfl
  | some slot =>
    obtain ⟨stamp, folder⟩ := slot
    cases folder <;> rfl

/-- Looking at a list finds what is wrong with it, and does nothing else. -/
theorem on_forM_look (ids : List StampId) (session : Session) :
    (ids.forM look).on session = match session.tree.hookError? ids with
      | some e => (.error e, session)
      | none => (.ok (), session) := by
  induction ids with
  | nil => rfl
  | cons id ids ih =>
    have hcons : session.tree.hookError? (id :: ids) =
        (session.tree.refusal? id).or (session.tree.hookError? ids) := by
      change (id :: ids).findSome? session.tree.refusal? = _
      rw [List.findSome?_cons]
      cases session.tree.refusal? id <;> rfl
    rw [List.forM, on_bind, on_look, hcons]
    cases session.tree.refusal? id with
    | some e => rfl
    | none => exact ih

theorem on_forM_attach (folder : FolderId) (ids : List StampId) (session : Session) :
    (ids.forM fun id => change (·.attach folder id)).on session =
      (.ok (), { session with tree := ids.foldl (fun tree id => tree.attach folder id) session.tree }) := by
  induction ids generalizing session with
  | nil => rfl
  | cons id ids ih =>
    rw [List.forM, on_bind]
    exact ih { session with tree := session.tree.attach folder id }

theorem on_hook (folder : FolderId) (ids : List StampId) (session : Session) :
    (hook folder ids).on session = match session.tree.hook folder ids with
      | .ok tree => (.ok (), { session with tree })
      | .error e => (.error e, session) := by
  rw [hook, on_bind, on_forM_look, Tree.hook]
  cases session.tree.hookError? ids with
  | some e => rfl
  | none => exact on_forM_attach folder ids session

theorem on_add {parent : FolderId} (name : String) (session : Session) (hparent : parent < session.tree.size) :
    (add parent name).on session = match session.tree.add parent name hparent with
      | .ok (child, tree) => (.ok child, { session with tree })
      | .error e => (.error e, session) := by
  have hstart : (get : Work Session).on session = (.ok session, session) := rfl
  rw [add, on_bind, hstart, Tree.add]
  by_cases hname : Assoc.contains (session.tree.folder parent).children name = true
  · simp only [if_pos hname]
    rfl
  · simp only [if_neg hname, dif_pos hparent]
    rfl

end Work

namespace Session

/-- What is left of a session after a list has been hooked onto a folder and after a folder has been made in it, step by step and as one operation. -/
structure ChangesAtomically (session : Session) {folder : FolderId} (hfolder : folder < session.tree.size)
    (ids : List StampId) (name : String) : Prop where
  hook_error : ∀ e, session.tree.hook folder ids = .error e →
    (Work.hook folder ids).on session = (.error e, session) ∧ session.step (.hook folder ids) = session ∧
      ∃ front id rest, ids = front ++ id :: rest ∧
        (∀ free ∈ front, session.tree.refusal? free = none) ∧ session.tree.refusal? id = some e
  hook_ok : ∀ tree, session.tree.hook folder ids = .ok tree →
    (Work.hook folder ids).on session = (.ok (), { session with tree }) ∧
      session.step (.hook folder ids) = { session with tree } ∧
      (∀ id ∈ ids, session.tree.refusal? id = none) ∧ Tree.HooksOnto folder ids session.tree tree
  add_error : ∀ e, session.tree.add folder name hfolder = .error e →
    (Work.add folder name).on session = (.error e, session) ∧ session.step (.add folder name) = session ∧
      name ∈ Assoc.keys (session.tree.folder folder).children
  add_ok : ∀ child tree, session.tree.add folder name hfolder = .ok (child, tree) →
    (Work.add folder name).on session = (.ok child, { session with tree }) ∧
      session.step (.add folder name) = { session with tree } ∧
      name ∉ Assoc.keys (session.tree.folder folder).children

/-- Hooking a list and making a folder are done in whole or not at all, whatever a session has been through before. -/
theorem changes_atomic (session : Session) {folder : FolderId} (hfolder : folder < session.tree.size)
    (ids : List StampId) (name : String) : session.ChangesAtomically hfolder ids name := by
  have hhook := Work.on_hook folder ids session
  have hadd := Work.on_add name session hfolder
  constructor
  case hook_error =>
    intro e he
    rw [he] at hhook
    have herror := Tree.hookError?_eq_some_iff.mp (Tree.hook_eq_error_iff.mp he)
    exact ⟨hhook, by simp only [step, if_pos hfolder, he], herror⟩
  case hook_ok =>
    intro tree htree
    obtain ⟨herror, rfl⟩ := Tree.hook_eq_ok_iff.mp htree
    have hfree := Tree.free_of_hookError? herror
    rw [htree] at hhook
    refine ⟨hhook, by simp only [step, if_pos hfolder, htree], fun id hid => ?_, ?_⟩
    · exact Tree.refusal?_eq_none_iff.mpr (hfree id hid)
    · exact .foldl_attach hfolder fun id hid => (hfree id hid).1
  case add_error =>
    intro e he
    rw [he] at hadd
    refine ⟨hadd, by simp only [step, dif_pos hfolder, he], ?_⟩
    refine Decidable.byContradiction fun hname => ?_
    rw [Tree.add, Assoc.contains_of_not_mem_keys hname] at he
    cases he
  case add_ok =>
    intro child tree htree
    rw [htree] at hadd
    exact ⟨hadd, by simp only [step, dif_pos hfolder, htree], (Tree.of_add_eq_ok htree).1⟩

/-- The list has a stamp in it that can be hooked in front of one that is hooked already. -/
theorem changes_atomic_secondHooked :
    let session := run { version := .release .bigip 11 5 0 } [
      .add 0 "Common", .insert (.node { address := "10.0.0.1" }), .compile 0]
    ∃ hfolder : 1 < session.tree.size, session.tree.refusal? 1 = none ∧
      session.tree.hookError? [1, 0] = some (.alreadyHooked 0 "Common") ∧
      session.ChangesAtomically hfolder [1, 0] "sub" := by
  intro session
  have hfolder : 1 < session.tree.size := by decide +kernel
  exact ⟨hfolder, by decide +kernel, by decide +kernel, changes_atomic session hfolder [1, 0] "sub"⟩

end Session

end ApplianceConfig
