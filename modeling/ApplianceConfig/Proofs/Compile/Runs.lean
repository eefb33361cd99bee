import ApplianceConfig.Proofs.Compile.Objects
import ApplianceConfig.Proofs.Document.Overwriting
import ApplianceConfig.Proofs.Tree.Reachable

/-!
# Runs of recipes

A run of a recipe goes through sequences and lists part by part, so what it ends with is told apart by what its parts end with. A stamp that is compiled, whatever was compiled before, is what a run of its recipe ends with.
-/

namespace ApplianceConfig

theorem Found.forall₂ {α β ε : Type} {find : α → Except ε β} {names : List α} {found : List β}
    (h : Found find names found) : List.Forall₂ (fun a b => find a = .ok b) names found := by
  induction names generalizing found with
  | nil =>
    cases h
    exact .nil
  | cons a names ih =>
    obtain ⟨b, rest, hb, hrest, rfl⟩ := h.of_cons
    exact .cons hb (ih hrest)

theorem exists_left_of_forall₂ {α β : Type} {R : α → β → Prop} {xs : List α} {ys : List β}
    (h : List.Forall₂ R xs ys) {y : β} (hy : y ∈ ys) : ∃ x ∈ xs, R x y := by
  induction h with
  | nil => cases hy
  | @cons x other xs ys hhead htail ih =>
    rcases List.mem_cons.mp hy with rfl | hy
    · exact ⟨x, List.mem_cons_self, hhead⟩
    · obtain ⟨z, hz, hrelated⟩ := ih hy
      exact ⟨z, List.mem_cons_of_mem x hz, hrelated⟩

/-- What is seen of a result shows that there is one. -/
theorem exists_eq_ok_of_toOption {α β ε : Type} {x : Except ε α} {f : α → β} {b : β}
    (h : x.toOption.map f = some b) : ∃ a, x = .ok a ∧ f a = b := by
  cases x with
  | error e => cases h
  | ok a => exact ⟨a, rfl, Option.some.inj h⟩

/-- A list that is related to one that is split is split in the same way. -/
theorem exists_split_of_forall₂ {α β : Type} {R : α → β → Prop} {xs : List α} {before : List β} {y : β} {after : List β}
    (h : List.Forall₂ R xs (before ++ y :: after)) :
    ∃ front x back, xs = front ++ x :: back ∧ R x y ∧ List.Forall₂ R back after := by
  induction before generalizing xs with
  | nil =>
    cases h with
    | cons hhead htail => exact ⟨[], _, _, rfl, hhead, htail⟩
  | cons z before ih =>
    cases h with
    | @cons first _ rest _ hhead htail =>
      obtain ⟨front, x, back, rfl, hrelated, hback⟩ := ih htail
      exact ⟨first :: front, x, back, rfl, hrelated, hback⟩

theorem Scope.stamp?_of_stamp {scope : Scope} {id : StampId} {stamp : Stamp} (h : scope.stamp id = .ok stamp) :
    scope.stamp? id = some stamp := by
  unfold Scope.stamp at h
  cases hfound : scope.stamp? id with
  | none =>
    rw [hfound] at h
    cases h
  | some found =>
    rw [hfound] at h
    cases h
    rfl

theorem Entries.block?_object_append (keys : List String) (name : String) (entries : Entries) (rest : List String) :
    block? (object keys name entries) (keys ++ name :: rest) = block? entries rest := by
  induction keys with
  | nil => simp [object, block?, Assoc.get?, Value.block]
  | cons key keys ih => simpa [object, block?, Assoc.get?] using ih

theorem Entries.block?_put (entries inner : Entries) (key : String) :
    block? (Assoc.put entries key (.block inner)) [key] = some inner := by
  simp [block?, Assoc.get?_put, Value.block]

namespace Recipe

variable {rank : Nat} {α β : Type}
  (answer : (id : StampId) → (kind : Kind) → kind.rank < rank → Except CompileError String)

theorem run_bind (x : Recipe rank α) (f : α → Recipe rank β) :
    (x >>= f).run .error answer = x.run .error answer >>= fun a => (f a).run .error answer := by
  change (x.andThen f).run .error answer = _
  induction x with
  | done result => rfl
  | fail e => rfl
  | refer id kind lower next ih =>
    simp only [andThen, run, ih, bind_assoc]

theorem run_lift (x : Except CompileError α) : (liftM x : Recipe rank α).run .error answer = x := by
  cases x <;> rfl

theorem run_key (id : StampId) (kind : Kind) (lower : kind.rank < rank) :
    (key id kind lower).run .error answer = answer id kind lower := bind_pure _

theorem run_mapM (f : α → Recipe rank β) (items : List α) :
    (items.mapM f).run .error answer = items.mapM fun a => (f a).run .error answer :=
  mapM_related (fun γ (x : Recipe rank γ) y => x.run .error answer = y) (fun _ => rfl)
    (fun {_ _ x y f g} hx hnext => by rw [run_bind, hx, funext hnext]) (fun _ => rfl) items

end Recipe

namespace Tree

variable {tree : Tree} (history : tree.History)

/-- A stamp that is compiled is hooked onto a folder, and it is compiled to what its recipe ends with. -/
theorem exists_run_of_compile {id : StampId} {stamp : Stamp} (hstamp : tree.stamp? id = some stamp)
    {compiled : Compiled} (h : (tree.compile id history.ledger).1 = .ok compiled) :
    ∃ folder output, tree.stampFolder? id = some folder ∧
      ((stamp.recipe (stamp.dialect tree.context.version) (tree.scope folder stamp.kind)
        (Template.document stamp.kind (stamp.dialect tree.context.version))).run .error
          fun id kind _ => tree.answer stamp.kind id kind) = .ok output ∧
      compiled = { key := output.key, value := output.value, dialect := stamp.dialect tree.context.version } := by
  rw [history.eq_of_gives (Compile.gives_compile tree id)] at h
  obtain ⟨⟨found, hooked⟩, hslot, hresult⟩ := exists_slot_of_outcome h
  obtain rfl : found = stamp := Option.some.inj ((stamp?_of_slot hslot).symm.trans hstamp)
  obtain ⟨folder, output, hfolder, hrun, hcompiled⟩ := exists_output_of_result hresult
  exact ⟨folder, output, (stampFolder?_of_slot hslot).trans hfolder, hrun, hcompiled⟩

/-- A question is answered by what its stamp is referred to by, whatever was compiled before. -/
theorem reference_of_answer {asker kind : Kind} {id : StampId} {key : String}
    (h : tree.answer asker id kind = .ok key) : (tree.reference id history.ledger).1 = .ok (some key) := by
  obtain ⟨slot, compiled, hslot, -, hresult, hkey⟩ := exists_result_of_answer h
  rw [history.eq_of_gives (Compile.gives_reference tree id), outcome, hslot]
  simp only [hresult, Except.map, hkey]

end Tree

end ApplianceConfig
