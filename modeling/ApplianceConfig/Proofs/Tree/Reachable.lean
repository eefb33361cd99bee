import ApplianceConfig.Proofs.Compile.Session
import ApplianceConfig.Proofs.Tree.Arena

/-!
# Trees of sessions

A session starts with the root alone or with some partitions. Those are added like any other folder, so nothing is lost by starting without them. No operation makes a tree that is not well formed, whatever the tree accepts or refuses on the way.
-/

namespace ApplianceConfig

/-- The tree that a session starts with: the root alone, or the common partition and a count of numbered ones. -/
def Tree.initial (context : Context) : Option Nat → Tree
  | none => .new context
  | some count => .withPartitions context count

namespace Session

/-- The session that starts with the root alone or with some partitions, and goes through some operations. -/
def runFrom (context : Context) (partitions : Option Nat) (operations : List Operation) : Session :=
  operations.foldl step { tree := .initial context partitions }

/-- Partitions that are there from the start might as well have been added. -/
theorem runFrom_eq_run (context : Context) (partitions : Option Nat) :
    ∃ first, ∀ operations, runFrom context partitions operations = run context (first ++ operations) := by
  cases partitions with
  | none => exact ⟨[], fun _ => rfl⟩
  | some count =>
    let names := commonPartition :: (List.range count).map fun i => "Partition" ++ toString (i + 1)
    have hadded : (names.map (Operation.add Tree.root)).foldl step { tree := .new context } =
        { tree := .withPartitions context count } := by
      rw [List.foldl_map]
      refine List.foldl_hom (fun tree => { tree : Session }) fun tree name => ?_
      rw [step]
      split
      · rename_i hroot
        cases tree.add Tree.root name hroot <;> rfl
      · rfl
    refine ⟨names.map (.add Tree.root), fun operations => ?_⟩
    rw [runFrom, run, List.foldl_append, hadded]
    rfl

/-! ### Well-formed trees -/

theorem step_wellFormed {session : Session} (h : session.tree.WellFormed) (operation : Operation) :
    (session.step operation).tree.WellFormed := by
  cases operation with
  | add parent name =>
    simp only [step]
    split
    · rename_i hparent
      cases hadd : session.tree.add parent name hparent with
      | error e => exact h
      | ok grown => exact h.add hadd
    · exact h
  | insert stamp => exact h.insert stamp
  | hook folder ids =>
    simp only [step]
    split
    · rename_i hfolder
      cases hhook : session.tree.hook folder ids with
      | error e => exact h
      | ok grown => exact h.hook hfolder hhook
    · exact h
  | hookStamp folder stamp =>
    simp only [step]
    split
    · rename_i hfolder
      exact h.hookStamp hfolder stamp
    · exact h
  | compile | reference | render | recache => exact h

theorem foldl_wellFormed {session : Session} (h : session.tree.WellFormed) (operations : List Operation) :
    (operations.foldl step session).tree.WellFormed := by
  induction operations generalizing session with
  | nil => exact h
  | cons operation operations ih => exact ih (step_wellFormed h operation)

theorem run_wellFormed (context : Context) (operations : List Operation) :
    (run context operations).tree.WellFormed := foldl_wellFormed (Tree.wellFormed_new context) operations

theorem runFrom_wellFormed (context : Context) (partitions : Option Nat) (operations : List Operation) :
    (runFrom context partitions operations).tree.WellFormed := by
  obtain ⟨first, hfirst⟩ := runFrom_eq_run context partitions
  rw [hfirst]
  exact run_wellFormed context _

end Session

/-! ### What was compiled before -/

/-- A ledger that some session leaves behind for a tree. -/
structure Tree.History (tree : Tree) where
  ledger : Ledger
  reached : ∃ context partitions operations,
    Session.runFrom context partitions operations = { tree, ledger }

namespace Tree.History

variable {tree : Tree}

/-- The ledger of a session, as a history of its tree. -/
def ofSession (context : Context) (partitions : Option Nat) (operations : List Operation) :
    (Session.runFrom context partitions operations).tree.History where
  ledger := (Session.runFrom context partitions operations).ledger
  reached := ⟨context, partitions, operations, rfl⟩

theorem exists_run (history : tree.History) :
    ∃ context operations, Session.run context operations = { tree, ledger := history.ledger } := by
  obtain ⟨context, partitions, operations, hrun⟩ := history.reached
  obtain ⟨first, hfirst⟩ := Session.runFrom_eq_run context partitions
  exact ⟨context, first ++ operations, (hfirst operations).symm.trans hrun⟩

theorem valid (history : tree.History) : Session.Valid { tree, ledger := history.ledger } := by
  obtain ⟨context, operations, hrun⟩ := history.exists_run
  rw [← hrun]
  exact Session.run_valid context operations

theorem wellFormed (history : tree.History) : tree.WellFormed := by
  obtain ⟨context, operations, hrun⟩ := history.exists_run
  have h := Session.run_wellFormed context operations
  rw [hrun] at h
  exact h

/-- What has been compiled before makes no difference to what a computation gives. -/
theorem eq_of_gives (history : tree.History) {α : Type} {x : Compile α}
    {result : Except CompileError α} (h : x.Gives tree [] result) : (x history.ledger).1 = result :=
  (h history.ledger history.valid.sound history.valid.idle).1

end Tree.History

end ApplianceConfig
