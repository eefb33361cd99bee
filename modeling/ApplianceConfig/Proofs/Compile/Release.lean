import ApplianceConfig.Proofs.Tree.Reachable
import ApplianceConfig.Proofs.Tree.Shape

/-!
# What a configuration depends on

Each version that a device is compared with is the first one of its release, so builds and hotfixes make no difference, and the only feature that is looked at is `afm`. Sessions for two devices that agree in product, release and this feature run alike: they make the same tree but for what it is written for, they keep the same results, and all that is compiled or rendered in them comes out the same.
-/

namespace ApplianceConfig

/-! ### Versions and contexts -/

/-- Whether a version has come to a release is decided by its product and its first three numbers. -/
theorem Version.atLeast_release (version : Version) (product : Product) (major minor patch : UInt32) :
    version.atLeast (.release product major minor patch) =
      (decide (version.product = product) && ((compare version.major major).then <|
        (compare version.minor minor).then <| compare version.patch patch) != .lt) := by
  have hlow (number : UInt32) : compare number 0 ≠ .lt :=
    fun hlt => UInt32.not_lt_zero (compareOfLessAndEq_eq_lt.mp hlt)
  have hlate : ((compare version.build 0).then <| (compare version.hotfix 0).then <|
      compare version.devel 0) ≠ .lt := by
    simp [Ordering.then_eq_lt, hlow]
  by_cases hproduct : version.product = product
  · simp only [atLeast, compare?, release, hproduct, decide_true, Bool.true_and]
    generalize (compare version.build 0).then _ = late at hlate ⊢
    cases compare version.major major <;> cases compare version.minor minor <;>
      cases compare version.patch patch <;> first | rfl | exact bne_iff_ne.mpr hlate
  · simp [atLeast, compare?, release, hproduct]

namespace Context

/-- Two contexts agree in what configurations depend on: the product, the numbers of the release, and the feature `afm`. -/
structure Alike (a b : Context) : Prop where
  product : b.version.product = a.version.product
  major : b.version.major = a.version.major
  minor : b.version.minor = a.version.minor
  patch : b.version.patch = a.version.patch
  afm : b.feature "afm" = a.feature "afm"

namespace Alike

theorem refl (context : Context) : context.Alike context := ⟨rfl, rfl, rfl, rfl, rfl⟩

variable {a b : Context} (h : a.Alike b)

include h

theorem version_atLeast (product : Product) (major minor patch : UInt32) :
    b.version.atLeast (.release product major minor patch) =
      a.version.atLeast (.release product major minor patch) := by
  rw [Version.atLeast_release, Version.atLeast_release, h.product, h.major, h.minor, h.patch]

theorem atLeast (product : Product) (major minor patch : UInt32) :
    b.atLeast product major minor patch = a.atLeast product major minor patch :=
  h.version_atLeast product major minor patch

theorem dialect (stamp : Stamp) : stamp.dialect b.version = stamp.dialect a.version := by
  cases stamp <;>
    simp only [Stamp.dialect, Dialect.ofVersion, markerDialect, h.version_atLeast, h.product]

theorem legacyStyle : Vlan.legacyStyle b.version = Vlan.legacyStyle a.version := by
  rw [Vlan.legacyStyle, Vlan.legacyStyle, h.version_atLeast, h.product]

end Alike

end Context

/-! ### Recipes -/

/-- The same surroundings, for something else to be written for. -/
def Scope.withContext (scope : Scope) (context : Context) : Scope := { scope with context }

namespace Context.Alike

variable {scope : Scope} {context : Context} (h : scope.context.Alike context)

include h

theorem isBigip : (scope.withContext context).isBigip = scope.isBigip := by
  rw [Scope.isBigip, Scope.isBigip, ← h.product]
  rfl

theorem scope_atLeast (product : Product) (major minor patch : UInt32) :
    (scope.withContext context).context.atLeast product major minor patch =
      scope.context.atLeast product major minor patch := h.atLeast product major minor patch

theorem scope_afm : (scope.withContext context).context.feature "afm" = scope.context.feature "afm" := h.afm

theorem hasFirewall : (scope.withContext context).hasFirewall = scope.hasFirewall :=
  h.scope_atLeast .bigip 11 3 0

theorem modernRecipe (stamp : Stamp) (template : Document) :
    stamp.modernRecipe (scope.withContext context) template = stamp.modernRecipe scope template := by
  cases stamp with
  | node s | pool s | virtualServer s =>
    simp only [Stamp.modernRecipe, Node.modern, Pool.modern, VirtualServer.modern, h.isBigip, h.scope_afm]
    rfl
  | addressList s | portList s | ruleList s | firewall s =>
    simp only [Stamp.modernRecipe, AddressList.modern, PortList.modern, RuleList.modern, Firewall.modern,
      h.hasFirewall]
    rfl
  | mail s | selfIp s | routeDomain s =>
    simp only [Stamp.modernRecipe, Mail.modern, SelfIp.modern, RouteDomain.modern, h.scope_atLeast, h.scope_afm]
    rfl
  | _ => rfl

theorem legacyRecipe (stamp : Stamp) (template : Document) :
    stamp.legacyRecipe (scope.withContext context) template = stamp.legacyRecipe scope template := by
  have hstyle : Vlan.legacyStyle (scope.withContext context).context.version =
      Vlan.legacyStyle scope.context.version := h.legacyStyle
  cases stamp with
  | node s | pool s | virtualServer s =>
    simp only [Stamp.legacyRecipe, Node.legacy, Pool.legacy, VirtualServer.legacy, h.isBigip]
    rfl
  | vlan s | provision s =>
    simp only [Stamp.legacyRecipe, Vlan.legacy, Provision.legacy, h.scope_atLeast, hstyle]
    rfl
  | _ => rfl

theorem recipe (stamp : Stamp) (dialect : Dialect) (template : Document) :
    stamp.recipe dialect (scope.withContext context) template = stamp.recipe dialect scope template := by
  cases dialect with
  | modern => exact h.modernRecipe stamp template
  | legacy => exact h.legacyRecipe stamp template

end Context.Alike

/-! ### Compiling and rendering -/

namespace Tree

theorem scope_withContext (tree : Tree) (context : Context) (folder : FolderId) (kind : Kind) :
    (tree.withContext context).scope folder kind = (tree.scope folder kind).withContext context := by
  have hshape := tree.sameShape_withContext context
  have hpath : (tree.withContext context).path = tree.path := funext hshape.path_eq
  simp only [scope, hpath, hshape.partitionOf_eq]
  rfl

section Alike

variable {tree : Tree} {context : Context} (h : tree.context.Alike context)

include h

theorem runRecipe_withContext (id : StampId) (stamp : Stamp) (folder : FolderId) :
    (tree.withContext context).runRecipe id stamp folder = tree.runRecipe id stamp folder := by
  have hdialect : stamp.dialect (tree.withContext context).context.version =
      stamp.dialect tree.context.version := h.dialect stamp
  have hscope : (tree.scope folder stamp.kind).context.Alike context := h
  funext answer
  simp only [runRecipe, scope_withContext, hdialect, hscope.recipe]

theorem compileSlot_withContext (id : StampId) (slot : Slot) :
    (tree.withContext context).compileSlot id slot = tree.compileSlot id slot := by
  funext answer ledger
  simp only [compileSlot, runRecipe_withContext h]

theorem compileBelow_withContext {bound : Nat} (id : StampId) {slot : Slot} (hrank : slot.stamp.kind.rank < bound) :
    (tree.withContext context).compileBelow bound id slot hrank = tree.compileBelow bound id slot hrank := by
  induction bound generalizing id slot with
  | zero => exact absurd hrank (Nat.not_lt_zero _)
  | succ bound ih =>
    simp only [compileBelow, compileSlot_withContext h, ih]
    rfl

theorem compile_withContext (id : StampId) : (tree.withContext context).compile id = tree.compile id := by
  simp only [compile, compileBelow_withContext h]
  rfl

theorem reference_withContext (id : StampId) :
    (tree.withContext context).reference id = tree.reference id := by
  rw [reference, reference, compile_withContext h]

theorem render_withContext (start : FolderId) (options : RenderOptions) (wanted : Stamp → Bool) :
    (tree.withContext context).render start options wanted = tree.render start options wanted := by
  have hstamp : (tree.withContext context).renderStamp options.indent = tree.renderStamp options.indent := by
    funext id
    rw [renderStamp, renderStamp, compile_withContext h]
  have hshape := tree.sameShape_withContext context
  rw [render, render, hshape.visited_eq, hstamp]
  rfl

theorem renderInto_withContext (buffer : String) (start : FolderId) (options : RenderOptions)
    (wanted : Stamp → Bool) :
    (tree.withContext context).renderInto buffer start options wanted =
      tree.renderInto buffer start options wanted := by
  funext ledger
  rw [renderInto, renderInto, render_withContext h]

end Alike

end Tree

/-! ### Sessions -/

namespace Session

/-- The same session, with its tree written for something else. -/
def withContext (session : Session) (context : Context) : Session :=
  { session with tree := session.tree.withContext context }

/-- What an operation makes of a tree depends neither on what the tree is written for nor on what was compiled before. -/
theorem tree_step_withContext {session other : Session} {context : Context}
    (h : other.tree = session.tree.withContext context) (operation : Operation) :
    (other.step operation).tree = (session.step operation).tree.withContext context := by
  obtain ⟨tree, ledger⟩ := session
  obtain ⟨_, otherLedger⟩ := other
  obtain rfl : _ = tree.withContext context := h
  cases operation with
  | add parent name =>
    by_cases hparent : parent < tree.size
    · have hparent' : parent < (tree.withContext context).size := hparent
      simp only [step, dif_pos hparent, dif_pos hparent', tree.add_withContext context parent name hparent]
      cases tree.add parent name hparent <;> rfl
    · have hparent' : ¬ parent < (tree.withContext context).size := hparent
      simp only [step, dif_neg hparent, dif_neg hparent']
  | insert stamp => rfl
  | hook folder ids =>
    simp only [step, tree.hook_withContext]
    change Session.tree (if folder < tree.size then _ else _) = _
    split
    · cases tree.hook folder ids <;> rfl
    · rfl
  | hookStamp folder stamp =>
    simp only [step, tree.hookStamp_withContext]
    change Session.tree (if folder < tree.size then _ else _) = _
    split <;> rfl
  | compile | reference | render | recache => rfl

/-- Growing leaves the ledger alone. -/
theorem ledger_step (session : Session) :
    (∀ parent name, (session.step (.add parent name)).ledger = session.ledger) ∧
      (∀ folder ids, (session.step (.hook folder ids)).ledger = session.ledger) ∧
      ∀ folder stamp, (session.step (.hookStamp folder stamp)).ledger = session.ledger := by
  refine ⟨fun parent name => ?_, fun folder ids => ?_, fun folder stamp => ?_⟩ <;> simp only [step] <;> split
  · cases session.tree.add parent name ‹_› <;> rfl
  · rfl
  · cases session.tree.hook folder ids <;> rfl
  all_goals rfl

theorem step_withContext {session : Session} {context : Context} (h : session.tree.context.Alike context)
    (operation : Operation) :
    (session.withContext context).step operation = (session.step operation).withContext context := by
  have hsame : (session.withContext context).tree = session.tree.withContext context := rfl
  have htree := tree_step_withContext hsame operation
  have hledger : ((session.withContext context).step operation).ledger = (session.step operation).ledger := by
    cases operation with
    | add | hook | hookStamp => simp only [ledger_step, withContext]
    | insert | recache => rfl
    | compile id => simp only [step, withContext, Tree.compile_withContext h]
    | reference id => simp only [step, withContext, Tree.reference_withContext h]
    | render start options wanted => simp only [step, withContext, Tree.render_withContext h]
  exact congr (congrArg Session.mk htree) hledger

theorem context_step (session : Session) (operation : Operation) :
    (session.step operation).tree.context = session.tree.context := by
  cases operation with
  | add parent name =>
    simp only [step]
    split
    · cases hadd : session.tree.add parent name ‹_› with
      | error e => rfl
      | ok added => exact (Tree.grows_add hadd).context
    · rfl
  | insert stamp => rfl
  | hook folder ids =>
    simp only [step]
    split
    · cases hhook : session.tree.hook folder ids with
      | error e => rfl
      | ok tree => exact (Tree.grows_hook hhook).context
    · rfl
  | hookStamp folder stamp =>
    simp only [step]
    split
    · exact (session.tree.grows_hookStamp folder stamp).context
    · rfl
  | compile | reference | render | recache => rfl

theorem foldl_step_withContext {session : Session} {context : Context} (h : session.tree.context.Alike context)
    (operations : List Operation) :
    operations.foldl step (session.withContext context) = (operations.foldl step session).withContext context := by
  induction operations generalizing session with
  | nil => rfl
  | cons operation operations ih =>
    rw [List.foldl_cons, List.foldl_cons, step_withContext h]
    exact ih (by rwa [context_step])

theorem initial_withContext (context other : Context) (partitions : Option Nat) :
    (Tree.initial other partitions).withContext context = Tree.initial context partitions := by
  cases partitions with
  | none => rfl
  | some count => exact Tree.withPartitions_withContext context other count

theorem tree_foldl_step_withContext {session other : Session} {context : Context}
    (h : other.tree = session.tree.withContext context) (operations : List Operation) :
    (operations.foldl step other).tree = (operations.foldl step session).tree.withContext context := by
  induction operations generalizing session other with
  | nil => exact h
  | cons operation operations ih => exact ih (tree_step_withContext h operation)

/-- The same operations make the same tree, whatever it is for. -/
theorem tree_runFrom_withContext (a b : Context) (partitions : Option Nat) (operations : List Operation) :
    (runFrom b partitions operations).tree = (runFrom a partitions operations).tree.withContext b :=
  tree_foldl_step_withContext (initial_withContext b a partitions).symm operations

/-- The same operations make the same tree and keep the same results, whichever of two alike contexts it is for. -/
theorem runFrom_withContext {a b : Context} (h : a.Alike b) (partitions : Option Nat) (operations : List Operation) :
    runFrom b partitions operations = (runFrom a partitions operations).withContext b := by
  have hcontext : (Tree.initial a partitions).context = a := by
    rw [← initial_withContext a a]
    rfl
  have hinitial : ({ tree := .initial b partitions } : Session) =
      withContext { tree := .initial a partitions } b := by
    rw [withContext, initial_withContext]
  rw [runFrom, hinitial, foldl_step_withContext (by rwa [hcontext])]
  rfl

theorem context_runFrom (context : Context) (partitions : Option Nat) (operations : List Operation) :
    (runFrom context partitions operations).tree.context = context := by
  have hsame := runFrom_withContext (.refl context) partitions operations
  exact congrArg (fun session => session.tree.context) hsame

/-- Whatever is compiled or rendered after the same operations gives the same result for two contexts that agree in product, release and `afm`, and leaves the same results behind. -/
theorem calls_eq_of_alike {a b : Context} (h : a.Alike b) (partitions : Option Nat)
    (operations : List Operation) :
    let first := runFrom a partitions operations
    let second := runFrom b partitions operations
    second = first.withContext b ∧
      (∀ id, second.tree.compile id second.ledger = first.tree.compile id first.ledger) ∧
      (∀ id, second.tree.reference id second.ledger = first.tree.reference id first.ledger) ∧
      (∀ start options wanted,
        second.tree.render start options wanted second.ledger =
          first.tree.render start options wanted first.ledger) ∧
      ∀ buffer start options wanted,
        second.tree.renderInto buffer start options wanted second.ledger =
          first.tree.renderInto buffer start options wanted first.ledger := by
  intro first second
  have hsecond : second = first.withContext b := runFrom_withContext h partitions operations
  have halike : first.tree.context.Alike b := by rwa [context_runFrom]
  rw [hsecond]
  refine ⟨rfl, fun id => ?_, fun id => ?_, fun start options wanted => ?_, fun buffer start options wanted => ?_⟩
  · exact congrFun (Tree.compile_withContext halike id) first.ledger
  · exact congrFun (Tree.reference_withContext halike id) first.ledger
  · exact congrFun (Tree.render_withContext halike start options wanted) first.ledger
  · exact congrFun (Tree.renderInto_withContext halike buffer start options wanted) first.ledger

/-- A virtual server with a pool and a rule of its own. -/
def guardedServer : List Operation := [
  .hookStamp 1 (.node { address := "10.0.0.1" }),
  .hookStamp 1 (.pool { name := "web", members := [{ node := 1, port := 80 }] }),
  .hookStamp 1 (.virtualServer {
    name := "vs", address := "10.0.0.9", port := 443, pool := some 2
    rules := [.inline { name := "r", source := { addresses := ["10.1.0.0/16"] } }] })]

theorem calls_eq_of_alike_hotfix :
    let plain : Context := { version := .release .bigip 11 5 0, features := [("afm", true)] }
    let fixed : Context := {
      version := { product := .bigip, major := 11, minor := 5, patch := 0, build := 7, hotfix := 4, devel := 1 }
      features := [("gtm", true), ("afm", true)] }
    let first := runFrom plain (some 0) guardedServer
    let second := runFrom fixed (some 0) guardedServer
    plain.Alike fixed ∧ fixed.version ≠ plain.version ∧
      second.tree.compile 3 second.ledger = first.tree.compile 3 first.ledger := by
  intro plain fixed first second
  have halike : plain.Alike fixed := ⟨rfl, rfl, rfl, rfl, by decide⟩
  obtain ⟨-, hcompile, -⟩ := calls_eq_of_alike halike (some 0) guardedServer
  exact ⟨halike, by decide, hcompile 3⟩

end Session

end ApplianceConfig
