import ApplianceConfig.Proofs.Compile.Failure
import ApplianceConfig.Proofs.Compile.Session

/-!
# Compilation is safe

Whatever a stamp refers to, itself included, compiling it ends: a stamp is compiled for another one only if its kind has a lower rank. So no stamp is ever asked for while it waits, a failure goes through at most two references, and since recipes fit their templates no failure is an internal one.
-/

namespace ApplianceConfig

/-! ### Stamps that are compiled for others -/

/-- The recipe may ask for the key of a stamp of a kind. -/
inductive Recipe.Asks {rank : Nat} {α : Type} (target : StampId) (wanted : Kind) :
    Recipe rank α → Prop
  | here (lower : wanted.rank < rank) (next : String → Recipe rank α) :
      Asks target wanted (.refer target wanted lower next)
  | later (id : StampId) (kind : Kind) (lower : kind.rank < rank) (next : String → Recipe rank α)
      (key : String) (h : Asks target wanted (next key)) : Asks target wanted (.refer id kind lower next)

theorem Recipe.Asks.rank_lt {rank : Nat} {α : Type} {recipe : Recipe rank α} {target : StampId}
    {wanted : Kind} (h : recipe.Asks target wanted) : wanted.rank < rank := by
  induction h with
  | here lower next => exact lower
  | later id kind lower next key h ih => exact ih

/-- The first stamp may have the second one compiled while it is compiled itself. -/
def Tree.Calls (tree : Tree) (caller callee : StampId) : Prop :=
  ∃ slot folder other, tree.slot? caller = some slot ∧ slot.folder = some folder ∧
    tree.slot? callee = some other ∧
    (slot.stamp.recipe (slot.stamp.dialect tree.context.version) (tree.scope folder slot.stamp.kind)
      (Template.document slot.stamp.kind (slot.stamp.dialect tree.context.version))).Asks callee
      other.stamp.kind

/-- The rank of a stamp's kind. -/
def Tree.rank (tree : Tree) (id : StampId) : Nat := ((tree.stamp? id).map fun s => s.kind.rank).getD 0

theorem Tree.Calls.rank_lt {tree : Tree} {caller callee : StampId} (h : tree.Calls caller callee) :
    tree.rank callee < tree.rank caller := by
  obtain ⟨slot, folder, other, hslot, -, hother, hasks⟩ := h
  rw [rank, rank, stamp?, stamp?, hslot, hother]
  exact hasks.rank_lt

/-- No chain of calls goes on without end. -/
theorem Tree.calls_wellFounded (tree : Tree) :
    WellFounded fun callee caller => tree.Calls caller callee :=
  Subrelation.wf (fun h => h.rank_lt) (measure tree.rank).wf

/-! ### Failures of stamps -/

theorem Kind.rank_le_two (kind : Kind) : kind.rank ≤ 2 := by cases kind <;> decide

theorem proper_referredBy {bound : Nat} {α : Type} {x : Except CompileError α} (h : Proper bound x)
    (kind : Kind) : Proper (bound + 1) (x.mapError (.reference kind)) := by
  cases x with
  | error e => exact .error ⟨(h e rfl).1, Nat.succ_le_succ (h e rfl).2⟩
  | ok a => exact .ok a

namespace Tree

theorem answer_proper (tree : Tree) {bound : Nat} {asker kind : Kind} {target : StampId}
    (h : ∀ slot, tree.slot? target = some slot → slot.stamp.kind = kind →
      Proper bound (tree.result slot)) : Proper (bound + 1) (tree.answer asker target kind) := by
  unfold answer
  cases htarget : tree.slot? target with
  | none => exact .error ⟨rfl, Nat.zero_le _⟩
  | some slot =>
    by_cases hkind : slot.stamp.kind = kind
    · simp only [if_pos hkind]
      refine (proper_referredBy (h slot htarget hkind) asker).bind fun compiled => ?_
      cases compiled.key with
      | none => exact .error ⟨rfl, Nat.zero_le _⟩
      | some key => exact .ok key
    · simp only [if_neg hkind]
      exact .error ⟨rfl, Nat.zero_le _⟩

/-- A stamp fails after as many references at most as its rank is. -/
theorem result_proper (tree : Tree) (slot : Slot) :
    Proper slot.stamp.kind.rank (tree.result slot) := by
  rw [tree.result_eq]
  cases slot.folder with
  | none => exact .error ⟨rfl, Nat.zero_le _⟩
  | some folder =>
    have hanswer (target : StampId) (kind : Kind) (lower : kind.rank < slot.stamp.kind.rank) :
        Proper slot.stamp.kind.rank (tree.answer slot.stamp.kind target kind) := by
      have hbelow : Proper (kind.rank + 1) (tree.answer slot.stamp.kind target kind) := by
        refine tree.answer_proper fun other hother hkind => ?_
        rw [← hkind]
        exact tree.result_proper other
      exact hbelow.mono lower
    simp only [Template.parse_eq]
    refine .bind_ok rfl ?_
    exact ((slot.stamp.recipe_proper _ _).run hanswer).bind fun output => .ok _
  termination_by slot.stamp.kind.rank
  decreasing_by
    rw [hkind]
    exact lower

theorem outcome_proper (tree : Tree) (id : StampId) : Proper 2 (tree.outcome id) := by
  unfold outcome
  cases tree.slot? id with
  | none => exact .error ⟨rfl, Nat.zero_le _⟩
  | some slot => exact (tree.result_proper slot).mono slot.stamp.kind.rank_le_two

theorem rendering_proper (tree : Tree) (start : FolderId) (options : RenderOptions)
    (wanted : Stamp → Bool) : Proper 2 (tree.rendering start options wanted) := by
  have hstamp (id : StampId) : Proper 2 (tree.stampText options.indent id) := by
    refine (tree.outcome_proper id).bind fun compiled => ?_
    cases compiled.value with
    | none => exact .ok _
    | some doc => exact .ok _
  exact (Proper.mapM hstamp _).bind fun _ => .ok _

end Tree

/-! ### Sessions -/

/-- The call gives a result or a failure that is not internal and went through two references at most, and leaves no stamp running. -/
def Compile.Safe {α : Type} (x : Compile α) (ledger : Ledger) : Prop :=
  (match (x ledger).1 with
    | .ok _ => True
    | .error e => e.internal = false ∧ e.depth ≤ 2) ∧
  (x ledger).2.running = []

theorem Session.Valid.safe {session : Session} (h : session.Valid) {α : Type} {x : Compile α}
    {result : Except CompileError α} (hx : x.Gives session.tree [] result) (hresult : Proper 2 result) :
    x.Safe session.ledger := by
  obtain ⟨hgives, -, hidle⟩ := hx session.ledger h.sound h.idle
  refine ⟨?_, hidle⟩
  rw [hgives]
  cases result with
  | ok a => trivial
  | error e => exact hresult e rfl

/-- At every point of a session no chain of calls between its stamps goes on without end, and every call is safe. -/
theorem Session.calls_safe (context : Context) (operations : List Operation) :
    let session := Session.run context operations
    (WellFounded fun callee caller => session.tree.Calls caller callee) ∧
      session.ledger.running = [] ∧
      (∀ id, (session.tree.compile id).Safe session.ledger) ∧
      (∀ id, (session.tree.reference id).Safe session.ledger) ∧
      ∀ start options wanted, (session.tree.render start options wanted).Safe session.ledger := by
  intro session
  have hvalid : session.Valid := Session.run_valid context operations
  refine ⟨session.tree.calls_wellFounded, hvalid.idle, ?_, ?_, ?_⟩
  · intro id
    exact hvalid.safe (Compile.gives_compile session.tree id) (session.tree.outcome_proper id)
  · intro id
    refine hvalid.safe (Compile.gives_reference session.tree id) ?_
    exact (session.tree.outcome_proper id).bind fun compiled => .ok _
  · intro start options wanted
    exact hvalid.safe (Compile.gives_render session.tree start options wanted)
      (session.tree.rendering_proper start options wanted)

end ApplianceConfig
