import ApplianceConfig.Proofs.Compile.Result

/-!
# Sessions

A session works on one tree and one ledger: the tree grows, and in between its stamps are compiled, referred to and rendered, in any order and with any stamps. Before and after each operation the ledger is true of the tree and no stamp is running, so results are the same as if nothing had been compiled before.
-/

namespace ApplianceConfig

structure Session where
  tree : Tree
  ledger : Ledger := {}

/-- What can be done in a session. The template cache may be changed for another one that has been asked for some templates before. -/
inductive Operation
  | add (parent : FolderId) (name : String)
  | insert (stamp : Stamp)
  | hook (folder : FolderId) (ids : List StampId)
  | hookStamp (folder : FolderId) (stamp : Stamp)
  | compile (id : StampId)
  | reference (id : StampId)
  | render (start : FolderId) (options : RenderOptions) (wanted : Stamp → Bool)
  | recache (requests : List (Kind × Dialect))

namespace Session

/-- The session after an operation. One that names a folder outside the tree, or that the tree refuses, changes nothing. -/
def step (session : Session) : Operation → Session
  | .add parent name =>
    if hparent : parent < session.tree.size then
      match session.tree.add parent name hparent with
      | .ok (_, tree) => { session with tree }
      | .error _ => session
    else session
  | .insert stamp => { session with tree := (session.tree.insert stamp).2 }
  | .hook folder ids =>
    if folder < session.tree.size then
      match session.tree.hook folder ids with
      | .ok tree => { session with tree }
      | .error _ => session
    else session
  | .hookStamp folder stamp =>
    if folder < session.tree.size then
      { session with tree := (session.tree.hookStamp folder stamp).2 }
    else session
  | .compile id => { session with ledger := (session.tree.compile id session.ledger).2 }
  | .reference id => { session with ledger := (session.tree.reference id session.ledger).2 }
  | .render start options wanted =>
    { session with ledger := (session.tree.render start options wanted session.ledger).2 }
  | .recache requests =>
    { session with ledger := { session.ledger with cache := (Template.Cache.getAll {} requests).2 } }

/-- The session that starts with an empty tree and goes through some operations. -/
def run (context : Context) (operations : List Operation) : Session :=
  operations.foldl step { tree := .new context }

/-- What holds between operations. -/
structure Valid (session : Session) : Prop where
  anchored : session.tree.Anchored
  sound : session.ledger.Sound session.tree
  idle : session.ledger.running = []

theorem valid_new (context : Context) : Valid { tree := .new context } where
  anchored := Tree.anchored_new context
  sound := Ledger.sound_empty (.new context)
  idle := rfl

theorem Valid.grow {session : Session} (h : session.Valid) {tree : Tree}
    (hgrows : session.tree.Grows tree) (hanchored : tree.Anchored) :
    Valid { session with tree } where
  anchored := hanchored
  sound := hgrows.sound h.anchored h.sound
  idle := h.idle

theorem Valid.after {session : Session} (h : session.Valid) {α : Type} {x : Compile α}
    {result : Except CompileError α} (hx : x.Gives session.tree [] result) :
    Valid { session with ledger := (x session.ledger).2 } := by
  obtain ⟨-, hsound, hidle⟩ := hx session.ledger h.sound h.idle
  exact ⟨h.anchored, hsound, hidle⟩

theorem Valid.step {session : Session} (h : session.Valid) (operation : Operation) :
    (session.step operation).Valid := by
  cases operation with
  | add parent name =>
    simp only [Session.step]
    split
    · rename_i hparent
      cases hadd : session.tree.add parent name hparent with
      | error e => exact h
      | ok grown => exact h.grow (Tree.grows_add hadd) (h.anchored.add hadd)
    · exact h
  | insert stamp => exact h.grow (session.tree.grows_insert stamp) (h.anchored.insert stamp)
  | hook folder ids =>
    simp only [Session.step]
    split
    · rename_i hfolder
      cases hhook : session.tree.hook folder ids with
      | error e => exact h
      | ok grown => exact h.grow (Tree.grows_hook hhook) (h.anchored.hook hfolder hhook)
    · exact h
  | hookStamp folder stamp =>
    simp only [Session.step]
    split
    · rename_i hfolder
      exact h.grow (session.tree.grows_hookStamp folder stamp) (h.anchored.hookStamp hfolder stamp)
    · exact h
  | compile id => exact h.after (Compile.gives_compile session.tree id)
  | reference id => exact h.after (Compile.gives_reference session.tree id)
  | render start options wanted =>
    exact h.after (Compile.gives_render session.tree start options wanted)
  | recache requests =>
    have hempty : Template.Cache.Faithful {} := ⟨nofun⟩
    exact ⟨h.anchored, ⟨hempty.getAll requests, h.sound.results⟩, h.idle⟩

theorem run_valid (context : Context) (operations : List Operation) :
    (run context operations).Valid := by
  have hsteps : ∀ session : Session, session.Valid → (operations.foldl Session.step session).Valid := by
    induction operations with
    | nil => exact fun _ h => h
    | cons operation operations ih => exact fun session h => ih _ (h.step operation)
  exact hsteps _ (valid_new context)

/-- Compiling a stamp gives what it gives when no result is kept, and what it gives in any other session that has made the same tree. -/
theorem compile_forget (context : Context) (operations : List Operation) (id : StampId) :
    let session := run context operations
    (session.tree.compile id session.ledger).1 =
        (session.tree.compile id session.ledger.forget).1 ∧
      ∀ others, (run context others).tree = session.tree →
        (session.tree.compile id (run context others).ledger).1 =
          (session.tree.compile id session.ledger).1 := by
  intro session
  have hvalid := run_valid context operations
  have hgives := Compile.gives_compile session.tree id
  obtain ⟨hresult, -⟩ := hgives session.ledger hvalid.sound hvalid.idle
  obtain ⟨hforget, -⟩ := hgives session.ledger.forget hvalid.sound.forget hvalid.idle
  refine ⟨hresult.trans hforget.symm, ?_⟩
  intro others htree
  have hother := run_valid context others
  have hsound := hother.sound
  rw [htree] at hsound
  obtain ⟨hagain, -⟩ := hgives (run context others).ledger hsound hother.idle
  exact hagain.trans hresult.symm

/-- A pool whose node is hooked only after some calls. -/
def hookedLate (calls : List Operation) : List Operation :=
  [.insert (.node { address := "10.0.0.1" }),
    .hookStamp 0 (.pool { name := "p", members := [{ node := 0, port := 80 }] })] ++
    calls ++ [.hook 0 [0]]

theorem compile_forget_hookedLate :
    let context : Context := { version := .release .bigip 11 5 0 }
    let session := run context (hookedLate [.compile 1, .reference 0])
    let silent := run context (hookedLate [])
    silent.tree = session.tree ∧
      (session.tree.compile 1 session.ledger).1 = (session.tree.compile 1 session.ledger.forget).1 ∧
      (session.tree.compile 1 silent.ledger).1 = (session.tree.compile 1 session.ledger).1 := by
  intro context session silent
  have htree : silent.tree = session.tree := rfl
  obtain ⟨hforget, hothers⟩ := compile_forget context (hookedLate [.compile 1, .reference 0]) 1
  exact ⟨htree, hforget, hothers (hookedLate []) htree⟩

end Session

end ApplianceConfig
