import ApplianceConfig.Proofs.Compile.Modern
import ApplianceConfig.Proofs.Compile.Release
import ApplianceConfig.Proofs.Compile.Runs

/-!
# What each release can write

A stamp may come to nothing, because the device knows no such object or not in this dialect. Whether it does is decided by its kind, the dialect and the version alone, and each kind is known from some release of a product on. So what has been written for one version is written for each later one too, also where the dialect changes on the way. Only the self IPs of BIG-IQ go the other way: from 4.2.0 on it manages them by itself.
-/

namespace ApplianceConfig

/-! ### The order of versions -/

namespace Version

/-- The order of the numbers of two versions, from the major one on. -/
def byNumbers : Version → Version → Ordering :=
  compareLex (compareOn major) <| compareLex (compareOn minor) <| compareLex (compareOn patch) <|
    compareLex (compareOn build) <| compareLex (compareOn hotfix) (compareOn devel)

instance : Std.TransCmp byNumbers := by
  unfold byNumbers
  infer_instance

theorem atLeast_iff {version bound : Version} :
    version.atLeast bound = true ↔ version.product = bound.product ∧ (byNumbers version bound).isGE = true := by
  unfold atLeast compare?
  by_cases hproduct : version.product = bound.product
  · rw [if_pos hproduct, and_iff_right hproduct]
    change (byNumbers version bound != .lt) = true ↔ _
    cases byNumbers version bound <;> decide
  · simp [hproduct]

theorem atLeast_trans {a b c : Version} (hbc : c.atLeast b = true) (hab : b.atLeast a = true) :
    c.atLeast a = true := by
  rw [atLeast_iff] at hbc hab ⊢
  exact ⟨hbc.1.trans hab.1, Std.TransCmp.isGE_trans hbc.2 hab.2⟩

end Version

section Later

variable {earlier later : Version} (hlater : later.atLeast earlier = true)

include hlater

theorem Dialect.modern_later (h : ofVersion earlier = .modern) : ofVersion later = .modern := by
  have hproduct := Version.product_eq_of_atLeast hlater
  have hrelease (bound : Version) : earlier.atLeast bound = true → later.atLeast bound = true :=
    Version.atLeast_trans hlater
  simp only [ofVersion, ite_eq_left_iff, reduceCtorEq, imp_false, not_not, Bool.or_eq_true, hproduct] at h ⊢
  exact h.imp_left (Or.imp (hrelease _) (hrelease _))

theorem markerDialect_later (h : markerDialect earlier = .modern) : markerDialect later = .modern := by
  have hproduct := Version.product_eq_of_atLeast hlater
  simp only [markerDialect, ite_eq_left_iff, reduceCtorEq, imp_false, not_not, Bool.or_eq_true, hproduct] at h ⊢
  exact h.imp_left (Or.imp_left (Version.atLeast_trans hlater))

/-- No stamp goes back to the flat dialect. -/
theorem Stamp.modern_later {stamp : Stamp} (h : stamp.dialect earlier = .modern) :
    stamp.dialect later = .modern := by
  cases stamp with
  | partition | folder => exact markerDialect_later hlater h
  | _ => exact Dialect.modern_later hlater h

end Later

/-! ### Kinds that are written -/

/-- Holds when the stamps of a kind come to objects. -/
def Kind.isWritten (context : Context) : Dialect → Kind → Bool
  | _, .node | _, .pool | _, .virtualServer => context.version.product == .bigip
  | _, .profile => false
  | .modern, .selfIp => !context.atLeast .bigiq 4 2 0
  | .modern, .mail => context.atLeast .bigip 11 3 0 || context.atLeast .em 3 0 0
  | .modern, .addressList | .modern, .portList | .modern, .ruleList | .modern, .firewall =>
    context.atLeast .bigip 11 3 0
  | .legacy, .provision => context.atLeast .bigip 10 0 0
  | .legacy, .folder | .legacy, .trunk | .legacy, .routeDomain | .legacy, .mail | .legacy, .addressList
  | .legacy, .portList | .legacy, .ruleList | .legacy, .firewall => false
  | _, _ => true

/-- What is written for a version is written for each later one, but for the self IPs of BIG-IQ. -/
theorem Kind.isWritten_later {kind : Kind} {a b : Context} (hlater : b.version.atLeast a.version = true)
    {before after : Dialect} (hdialect : before = .modern → after = .modern)
    (hmanaged : ¬ (kind = .selfIp ∧ a.version.product = .bigiq)) (h : kind.isWritten a before = true) :
    kind.isWritten b after = true := by
  have hproduct := Version.product_eq_of_atLeast hlater
  have hrelease (product : Product) (major minor patch : UInt32)
      (h : a.atLeast product major minor patch = true) : b.atLeast product major minor patch = true :=
    Version.atLeast_trans hlater h
  have hself : kind = .selfIp → b.atLeast .bigiq 4 2 0 = false := by
    intro hkind
    rw [← Bool.not_eq_true]
    intro hbigiq
    have hsame : b.version.product = .bigiq := Version.product_eq_of_atLeast hbigiq
    exact hmanaged ⟨hkind, hproduct.symm.trans hsame⟩
  cases before <;> cases after <;> cases kind <;> grind [isWritten]

/-- Holds of what a stamp ends with when it comes to an object, or when it comes to nothing. -/
def Output.Written (written : Bool) (output : Output) : Prop := output.value.isSome = written

section Gate

variable {skip written : Bool}

theorem Yields.gate (hskip : skip = !written) {x : Except CompileError Output}
    (h : Yields (Output.Written true) x) : Yields (Output.Written written) (if skip then pure {} else x) := by
  subst hskip
  cases written
  · exact .ok rfl
  · exact h

theorem Recipe.Ensures.gate {rank : Nat} {answers : Kind → String → Prop} (hskip : skip = !written)
    {x : Recipe rank Output} (h : x.Ensures answers (Output.Written true)) :
    (if skip then pure {} else x).Ensures answers (Output.Written written) := by
  subst hskip
  cases written
  · rfl
  · exact h

end Gate

namespace Stamp

theorem modernRecipe_written (stamp : Stamp) (scope : Scope) (template : Document) :
    (stamp.modernRecipe scope template).Ensures (fun _ _ => True)
      (Output.Written (stamp.kind.isWritten scope.context .modern)) := by
  cases stamp with
  | raw | profile | defaults => rfl
  | partition settings =>
    refine .ofExcept ((Yields.trivial _).bind fun _ _ => (Yields.trivial _).bind fun _ _ => ?_)
    exact (Yields.trivial _).bind fun _ _ => .ok rfl
  | platform platform =>
    refine .ofExcept ((Yields.trivial _).bind fun _ _ => (Yields.trivial _).bind fun _ _ => ?_)
    cases platform.dhcp <;>
      exact (Yields.trivial _).bind fun _ _ => (Yields.trivial _).bind fun _ _ => .ok rfl
  | folder | trunk | vlan | provision | dns | ntp | user =>
    exact .ofExcept ((Yields.trivial _).bind fun _ _ => .ok rfl)
  | mail | addressList | portList => exact .ofExcept (.gate rfl ((Yields.trivial _).bind fun _ _ => .ok rfl))
  | node node =>
    refine .ofExcept (.gate rfl ((Yields.trivial _).bind fun suffix _ => ?_))
    exact (Yields.trivial _).bind fun _ _ => .ok rfl
  | pool | ruleList | firewall => exact .gate rfl (.bind (.trivial _) fun _ _ => .bind (.trivial _) fun _ _ => rfl)
  | virtualServer server =>
    refine .gate rfl (.bind (.trivial _) fun suffix _ => .bind (.trivial _) fun profiles _ => ?_)
    refine .bind (.trivial _) fun rules _ => .bind (.trivial _) fun pool _ => ?_
    exact .bind (.trivial _) fun destination _ => .bind (.trivial _) fun _ _ => .bind (.trivial _) fun _ _ => rfl
  | selfIp selfIp =>
    refine .gate (Bool.not_not _).symm (.bind (.trivial _) fun suffix _ => .bind (.trivial _) fun vlan _ => ?_)
    exact .bind (.trivial _) fun rules _ => .bind (.trivial _) fun _ _ => rfl
  | routeDomain domain =>
    exact .bind (.trivial _) fun vlans _ => .bind (.trivial _) fun rules _ => .bind (.trivial _) fun _ _ => rfl

theorem legacyRecipe_written (stamp : Stamp) (scope : Scope) (template : Document) :
    (stamp.legacyRecipe scope template).Ensures (fun _ _ => True)
      (Output.Written (stamp.kind.isWritten scope.context .legacy)) := by
  cases stamp with
  | folder | raw | profile | trunk | routeDomain | mail | addressList | portList | ruleList | firewall => rfl
  | vlan | dns | ntp | user => exact .ofExcept ((Yields.trivial _).bind fun _ _ => .ok rfl)
  | partition | defaults =>
    exact .ofExcept ((Yields.trivial _).bind fun _ _ => (Yields.trivial _).bind fun _ _ => .ok rfl)
  | platform platform =>
    refine .ofExcept ((Yields.trivial _).bind fun _ _ => (Yields.trivial _).bind fun _ _ => ?_)
    exact (Yields.trivial _).bind fun _ _ => .ok rfl
  | node | provision => exact .ofExcept (.gate rfl ((Yields.trivial _).bind fun _ _ => .ok rfl))
  | pool pool =>
    refine .ofExcept (.gate rfl ((Yields.trivial _).bind fun members _ => ?_))
    exact (Yields.trivial _).bind fun _ _ => .ok rfl
  | virtualServer server =>
    refine .gate rfl (.bind (.trivial _) fun names _ => .bind (.trivial _) fun pool _ => ?_)
    exact .bind (.trivial _) fun destination _ => .bind (.trivial _) fun _ _ => rfl
  | selfIp selfIp => exact .bind (.trivial _) fun vlan _ => .bind (.trivial _) fun _ _ => rfl

/-- Whatever a recipe is answered, and whatever its template is like, it comes to an object if the kind is written, and to nothing otherwise. -/
theorem recipe_written (stamp : Stamp) (dialect : Dialect) (scope : Scope) (template : Document) :
    (stamp.recipe dialect scope template).Ensures (fun _ _ => True)
      (Output.Written (stamp.kind.isWritten scope.context dialect)) := by
  cases dialect with
  | modern => exact stamp.modernRecipe_written scope template
  | legacy => exact stamp.legacyRecipe_written scope template

end Stamp

theorem Tree.isSome_value_of_compile {tree : Tree} (history : tree.History) {id : StampId} {stamp : Stamp}
    (hstamp : tree.stamp? id = some stamp) {compiled : Compiled}
    (h : (tree.compile id history.ledger).1 = .ok compiled) :
    compiled.value.isSome = stamp.kind.isWritten tree.context (stamp.dialect tree.context.version) := by
  obtain ⟨folder, output, -, hrun, rfl⟩ := exists_run_of_compile history hstamp h
  exact (stamp.recipe_written ..).run (fun _ _ _ => .trivial _) output hrun

namespace Session

/-- What comes to an object for one version comes to one for each later version of the product, whichever features are on. Only the self IPs of BIG-IQ are left out. -/
theorem values_kept {earlier later : Context} (hlater : later.version.atLeast earlier.version = true)
    (partitions : Option Nat) (operations : List Operation) :
    let first := runFrom earlier partitions operations
    let second := runFrom later partitions operations
    second.tree = first.tree.withContext later ∧
      ∀ id stamp, first.tree.stamp? id = some stamp →
        ¬ (stamp.kind = .selfIp ∧ earlier.version.product = .bigiq) →
        ∀ compiled recompiled, (first.tree.compile id first.ledger).1 = .ok compiled →
          (second.tree.compile id second.ledger).1 = .ok recompiled →
          compiled.value.isSome = true → recompiled.value.isSome = true := by
  intro first second
  have htree : second.tree = first.tree.withContext later :=
    tree_runFrom_withContext earlier later partitions operations
  refine ⟨htree, fun id stamp hstamp hmanaged compiled recompiled hcompiled hrecompiled hvalue => ?_⟩
  have hagain : second.tree.stamp? id = some stamp := by
    rw [htree]
    exact hstamp
  rw [Tree.isSome_value_of_compile (.ofSession earlier partitions operations) hstamp hcompiled,
    context_runFrom] at hvalue
  rw [Tree.isSome_value_of_compile (.ofSession later partitions operations) hagain hrecompiled, context_runFrom]
  exact Kind.isWritten_later hlater (Stamp.modern_later hlater) hmanaged hvalue

/-- A software module and a pool. -/
def provisionedPool : List Operation := [
  .hookStamp 1 (.provision { module := "ltm" }),
  .hookStamp 1 (.node { address := "10.0.0.1" }),
  .hookStamp 1 (.pool { name := "web", members := [{ node := 2, port := 80 }] })]

/-- The flat dialect has resource levels from 10.0.0 on only, and the modern dialect on all releases. -/
theorem values_kept_provisionedPool :
    let earlier : Context := { version := .release .bigip 10 0 0 }
    let later : Context := { version := .release .bigip 11 0 0, features := [("afm", true)] }
    let first := runFrom earlier (some 0) provisionedPool
    let second := runFrom later (some 0) provisionedPool
    ∃ compiled recompiled, (first.tree.compile 1 first.ledger).1 = .ok compiled ∧ compiled.dialect = .legacy ∧
      (second.tree.compile 1 second.ledger).1 = .ok recompiled ∧ recompiled.dialect = .modern ∧
      compiled.value.isSome = true ∧ recompiled.value.isSome = true := by
  intro earlier later first second
  have hlater : later.version.atLeast earlier.version = true := by decide
  have hfirst : (first.tree.compile 1 first.ledger).1.toOption.map
      (fun compiled => (compiled.dialect, compiled.value.isSome)) = some (.legacy, true) := by decide +kernel
  have hsecond : (second.tree.compile 1 second.ledger).1.toOption.map Compiled.dialect = some .modern := by
    decide +kernel
  obtain ⟨compiled, hcompiled, hwritten⟩ := exists_eq_ok_of_toOption hfirst
  obtain ⟨recompiled, hrecompiled, hmodern⟩ := exists_eq_ok_of_toOption hsecond
  obtain ⟨hlegacy, hvalue⟩ := Prod.ext_iff.mp hwritten
  obtain ⟨-, hkept⟩ := values_kept hlater (some 0) provisionedPool
  have hmodule : (first.tree.stamp? 1).map Stamp.kind = some .provision := by decide +kernel
  obtain ⟨stamp, hstamp, hkind⟩ := Option.map_eq_some_iff.mp hmodule
  have hmanaged : ¬ (stamp.kind = .selfIp ∧ earlier.version.product = .bigiq) := by
    rw [hkind]
    decide
  exact ⟨compiled, recompiled, hcompiled, hlegacy, hrecompiled, hmodern, hvalue,
    hkept 1 _ hstamp hmanaged compiled recompiled hcompiled hrecompiled hvalue⟩

end Session

end ApplianceConfig
