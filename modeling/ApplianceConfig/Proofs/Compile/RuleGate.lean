import ApplianceConfig.Proofs.Compile.Runs
import ApplianceConfig.Proofs.Compile.Safety
import ApplianceConfig.Proofs.Tree.Shape
import Mathlib

/-!
# Rules behind a feature

Virtual servers and route domains have their attached rules written only when the `afm` feature is on. Without it nothing that is compiled depends on these rules, whether they could be compiled or not. Modern self IPs are not looked after in this way: they have their rules written in any case, and this is all that their rules make a difference to.
-/

namespace ApplianceConfig

/-! ### Stamps without their rules -/

/-- The stamp with no rules attached to it, for the kinds that rules are attached to by the feature. -/
def Stamp.withoutRules : Stamp → Stamp
  | .virtualServer s => .virtualServer { s with rules := [] }
  | .selfIp s => .selfIp { s with rules := [] }
  | .routeDomain s => .routeDomain { s with rules := [] }
  | stamp => stamp

/-- Holds of the stamps that have rules and attach them whatever features are on. -/
def Stamp.AttachesUngated (context : Context) : Stamp → Prop
  | .selfIp s => Dialect.ofVersion context.version = .modern ∧ context.atLeast .bigiq 4 2 0 = false ∧ s.rules ≠ []
  | _ => False

theorem Stamp.AttachesUngated.exists_selfIp {context : Context} {stamp : Stamp} (h : stamp.AttachesUngated context) :
    ∃ s, stamp = .selfIp s ∧ Dialect.ofVersion context.version = .modern ∧
      context.atLeast .bigiq 4 2 0 = false := by
  cases stamp with
  | selfIp s => exact ⟨s, rfl, h.1, h.2.1⟩
  | _ => cases h

theorem Stamp.AttachesUngated.kind_eq {context : Context} {stamp : Stamp} (h : stamp.AttachesUngated context) :
    stamp.kind = .selfIp := by
  obtain ⟨s, rfl, -, -⟩ := h.exists_selfIp
  rfl

@[simp] theorem Stamp.kind_withoutRules (stamp : Stamp) : stamp.withoutRules.kind = stamp.kind := by cases stamp <;> rfl

@[simp] theorem Stamp.dialect_withoutRules (stamp : Stamp) (version : Version) :
    stamp.withoutRules.dialect version = stamp.dialect version := by
  cases stamp <;> rfl

/-- The same surroundings, with no rules attached to stamps. -/
def Scope.withoutRules (scope : Scope) : Scope :=
  { scope with stamp? := fun id => (scope.stamp? id).map Stamp.withoutRules }

namespace Scope

variable (scope : Scope)

theorem stamp_withoutRules (id : StampId) : scope.withoutRules.stamp id = (scope.stamp id).map Stamp.withoutRules := by
  have hfound : scope.withoutRules.stamp? id = (scope.stamp? id).map Stamp.withoutRules := rfl
  rw [stamp, stamp, hfound]
  cases scope.stamp? id <;> rfl

theorem stampPath_withoutRules : scope.withoutRules.stampPath = scope.stampPath := by
  funext id name
  unfold stampPath
  have hhook : scope.withoutRules.hookPath? id = scope.hookPath? id := rfl
  rw [stamp_withoutRules, hhook]
  cases scope.hookPath? id with
  | some path => rfl
  | none =>
    cases scope.stamp id with
    | error e => rfl
    | ok stamp => exact congrArg (fun kind => Except.error (CompileError.missingContext kind)) stamp.kind_withoutRules

/-- What is made of a stamp by its constructor -/
theorem bind_stamp_withoutRules {α : Type} (id : StampId) {f : Stamp → Except CompileError α}
    (hf : ∀ stamp, f stamp.withoutRules = f stamp) :
    (scope.withoutRules.stamp id >>= f) = (scope.stamp id >>= f) := by
  rw [stamp_withoutRules]
  cases scope.stamp id with
  | error e => rfl
  | ok stamp => exact hf stamp

theorem routeDomainSuffix_withoutRules : scope.withoutRules.routeDomainSuffix = scope.routeDomainSuffix := by
  funext routeDomain
  cases routeDomain with
  | none => rfl
  | some id => exact scope.bind_stamp_withoutRules id fun stamp => by cases stamp <;> rfl

theorem target_withoutRules (member : Member) : member.target scope.withoutRules = member.target scope :=
  scope.bind_stamp_withoutRules member.node fun stamp => by cases stamp <;> rfl

theorem profile_withoutRules : VirtualServer.profile scope.withoutRules = VirtualServer.profile scope :=
  funext fun id => scope.bind_stamp_withoutRules id fun stamp => by cases stamp <;> rfl

theorem profileEntry_withoutRules :
    VirtualServer.profileEntry scope.withoutRules = VirtualServer.profileEntry scope := by
  funext id
  simp only [VirtualServer.profileEntry, profile_withoutRules, stampPath_withoutRules]

theorem ruleEntry_withoutRules {rank : Nat} (low : 1 < rank) (rule : AttachedRule) :
    rule.entry scope.withoutRules low = rule.entry scope low := by
  cases rule with
  | inline rule => rfl
  | list id =>
    simp only [AttachedRule.entry, stamp_withoutRules]
    cases scope.stamp id with
    | error e => rfl
    | ok stamp => cases stamp <;> rfl

theorem ruleBlock_withoutRules {rank : Nat} (low : 1 < rank) (rules : List AttachedRule) :
    AttachedRule.block rules scope.withoutRules low = AttachedRule.block rules scope low := by
  simp only [AttachedRule.block, ruleEntry_withoutRules]

end Scope

namespace Stamp

variable (stamp : Stamp) (scope : Scope) (template : Document)

/-- No recipe looks at the rules of another stamp. -/
theorem modernRecipe_withoutRules :
    stamp.modernRecipe scope.withoutRules template = stamp.modernRecipe scope template := by
  cases stamp with
  | node s | pool s | virtualServer s | selfIp s | routeDomain s | firewall s =>
    simp only [modernRecipe, Node.modern, Pool.modern, VirtualServer.modern, SelfIp.modern, RouteDomain.modern,
      Firewall.modern, Member.modernEntry, VirtualServer.profileEntries, VirtualServer.destination, attachedRules,
      scope.routeDomainSuffix_withoutRules, scope.target_withoutRules, scope.profileEntry_withoutRules,
      scope.ruleBlock_withoutRules]
    rfl
  | _ => rfl

theorem legacyRecipe_withoutRules :
    stamp.legacyRecipe scope.withoutRules template = stamp.legacyRecipe scope template := by
  cases stamp with
  | pool s | virtualServer s =>
    simp only [legacyRecipe, Pool.legacy, VirtualServer.legacy, Member.legacyEntries, VirtualServer.profileNames,
      VirtualServer.destination, scope.routeDomainSuffix_withoutRules, scope.target_withoutRules,
      scope.profile_withoutRules]
    rfl
  | _ => rfl

/-- Without the feature, a stamp that does not attach its rules regardless is compiled as if it had none. -/
theorem run_withoutRules (hafm : scope.context.feature "afm" = false)
    (hgated : ¬ stamp.AttachesUngated scope.context) (answer : StampId → Kind → Except CompileError String) :
    let dialect := stamp.dialect scope.context.version
    ((stamp.withoutRules.recipe dialect scope.withoutRules template).run .error fun id kind _ => answer id kind) =
      (stamp.recipe dialect scope template).run .error fun id kind _ => answer id kind := by
  intro dialect
  have hscope : stamp.withoutRules.recipe dialect scope.withoutRules template =
      stamp.withoutRules.recipe dialect scope template := by
    cases dialect with
    | modern => exact stamp.withoutRules.modernRecipe_withoutRules scope template
    | legacy => exact stamp.withoutRules.legacyRecipe_withoutRules scope template
  rw [hscope]
  cases hdialect : dialect with
  | legacy => cases stamp <;> rfl
  | modern =>
    cases stamp with
    | virtualServer s | routeDomain s =>
      simp only [withoutRules, recipe, modernRecipe, VirtualServer.modern, RouteDomain.modern, hafm]
      rfl
    | selfIp s =>
      by_cases hrules : s.rules = []
      · have hsame : { s with rules := [] } = s := by rw [← hrules]
        exact congrArg (fun s : SelfIp => (s.modern scope template).run .error fun id kind _ => answer id kind) hsame
      · have hmanaged : scope.context.atLeast .bigiq 4 2 0 = true := by
          by_contra hother
          exact hgated ⟨hdialect, Bool.not_eq_true _ ▸ hother, hrules⟩
        simp only [withoutRules, recipe, modernRecipe, SelfIp.modern, hmanaged]
        rfl
    | _ => rfl

end Stamp

/-! ### Trees without their rules -/

def Slot.withoutRules (slot : Slot) : Slot := { slot with stamp := slot.stamp.withoutRules }

namespace Tree

/-- Holds when a stamp of the tree has rules and attaches them whatever features are on. -/
def AttachesUngated (tree : Tree) (id : StampId) : Prop :=
  ∃ stamp, tree.stamp? id = some stamp ∧ stamp.AttachesUngated tree.context

/-- The same tree, with no rules attached to virtual servers, self IPs and route domains. -/
def withoutRules (tree : Tree) : Tree := { tree with slots := tree.slots.map Slot.withoutRules }

variable (tree : Tree)

theorem sameShape_withoutRules : tree.SameShape tree.withoutRules :=
  ⟨rfl, fun _ => rfl, fun _ => rfl, fun _ => rfl, fun _ => rfl⟩

theorem slot?_withoutRules (id : StampId) : tree.withoutRules.slot? id = (tree.slot? id).map Slot.withoutRules :=
  List.getElem?_map

theorem stamp?_withoutRules (id : StampId) : tree.withoutRules.stamp? id = (tree.stamp? id).map Stamp.withoutRules := by
  rw [stamp?, stamp?, slot?_withoutRules, Option.map_map, Option.map_map]
  rfl

theorem stampFolder?_withoutRules (id : StampId) : tree.withoutRules.stampFolder? id = tree.stampFolder? id := by
  rw [stampFolder?, stampFolder?, slot?_withoutRules]
  cases tree.slot? id <;> rfl

theorem scope_withoutRules (folder : FolderId) (kind : Kind) :
    tree.withoutRules.scope folder kind = (tree.scope folder kind).withoutRules := by
  have hshape := tree.sameShape_withoutRules
  have hpath : tree.withoutRules.path = tree.path := funext hshape.path_eq
  have hstamp : tree.withoutRules.stamp? = fun id => (tree.stamp? id).map Stamp.withoutRules :=
    funext tree.stamp?_withoutRules
  simp only [scope, hpath, hstamp, stampFolder?_withoutRules, hshape.partitionOf_eq]
  rfl

variable {tree}

theorem answer_withoutRules {asker kind : Kind} {target : StampId}
    (hresult : ∀ slot, tree.slot? target = some slot → slot.stamp.kind = kind →
      tree.withoutRules.result slot.withoutRules = tree.result slot) :
    tree.withoutRules.answer asker target kind = tree.answer asker target kind := by
  unfold answer
  rw [slot?_withoutRules]
  cases hslot : tree.slot? target with
  | none => rfl
  | some slot =>
    have hsame : slot.withoutRules.stamp.kind = slot.stamp.kind := slot.stamp.kind_withoutRules
    simp only [Option.map_some, hsame]
    by_cases hkind : slot.stamp.kind = kind
    · simp only [if_pos hkind, hresult slot hslot hkind]
    · simp only [if_neg hkind]

variable (hafm : tree.context.feature "afm" = false)

include hafm

/-- A stamp that does not attach its rules regardless compiles to what it compiles to where nothing has rules. -/
theorem result_withoutRules (stamp : Stamp) (hooked : Option FolderId)
    (hgated : ¬ stamp.AttachesUngated tree.context) :
    tree.withoutRules.result ⟨stamp.withoutRules, hooked⟩ = tree.result ⟨stamp, hooked⟩ := by
  rw [tree.result_eq, tree.withoutRules.result_eq]
  cases hooked with
  | none => exact congrArg (fun kind => Except.error (CompileError.missingContext kind)) stamp.kind_withoutRules
  | some folder =>
    have hbelow (target : StampId) (kind : Kind) (lower : kind.rank < stamp.kind.rank) :
        tree.withoutRules.answer stamp.kind target kind = tree.answer stamp.kind target kind := by
      refine answer_withoutRules fun slot _ hkind => result_withoutRules slot.stamp slot.folder fun hself => ?_
      obtain rfl : kind = .selfIp := hkind.symm.trans hself.kind_eq
      exact absurd lower (Nat.not_lt_of_le stamp.kind.rank_le_two)
    have hanswer : (fun target kind (_ : kind.rank < stamp.withoutRules.kind.rank) =>
        tree.withoutRules.answer stamp.withoutRules.kind target kind) =
          fun target kind _ => tree.answer stamp.kind target kind := by
      funext target kind lower
      rw [stamp.kind_withoutRules] at lower ⊢
      exact hbelow target kind lower
    have hscope : tree.withoutRules.scope folder stamp.withoutRules.kind =
        (tree.scope folder stamp.kind).withoutRules := by
      rw [scope_withoutRules, stamp.kind_withoutRules]
    have hdialect : stamp.withoutRules.dialect tree.withoutRules.context.version =
        stamp.dialect tree.context.version := stamp.dialect_withoutRules _
    have htemplate (dialect : Dialect) : Template.document stamp.withoutRules.kind dialect =
        Template.document stamp.kind dialect := by
      rw [stamp.kind_withoutRules]
    have hrun := stamp.run_withoutRules (tree.scope folder stamp.kind)
      (Template.document stamp.kind (stamp.dialect tree.context.version)) hafm hgated (tree.answer stamp.kind)
    simp only [Template.parse_eq, hscope, hdialect, htemplate, hanswer]
    exact congrArg (· >>= fun output : Output => pure (Compiled.mk output.key output.value
      (stamp.dialect tree.context.version))) hrun
  termination_by stamp.kind.rank
  decreasing_by
    rw [hkind]
    exact lower

theorem outcome_withoutRules {id : StampId} (hgated : ¬ tree.AttachesUngated id) :
    tree.withoutRules.outcome id = tree.outcome id := by
  unfold outcome
  rw [slot?_withoutRules]
  cases hslot : tree.slot? id with
  | none => rfl
  | some slot =>
    refine result_withoutRules hafm slot.stamp slot.folder fun hungated => ?_
    exact hgated ⟨slot.stamp, stamp?_of_slot hslot, hungated⟩

end Tree

/-! ### Bodies of objects -/

mutual

/-- The bodies of the objects that a value leads to: the mappings behind chains of keys. -/
def Value.bodies : Value → List Entries
  | .map .chained entries => bodiesOf entries
  | .map _ entries => [entries]
  | _ => []

/-- The bodies of the objects that entries lead to. -/
def bodiesOf : List (String × Value) → List Entries
  | [] => []
  | (_, value) :: rest => value.bodies ++ bodiesOf rest

end

theorem bodiesOf_append (entries more : Entries) : bodiesOf (entries ++ more) = bodiesOf entries ++ bodiesOf more := by
  induction entries with
  | nil => rfl
  | cons e entries ih =>
    obtain ⟨key, value⟩ := e
    rw [List.cons_append, bodiesOf, bodiesOf, ih, List.append_assoc]

theorem bodiesOf_object (keys : List String) (name : String) (entries : Entries) :
    bodiesOf (object keys name entries) = [entries] := by
  induction keys with
  | nil => rfl
  | cons key keys ih => rw [object, bodiesOf, Value.bodies, ih, bodiesOf, List.append_nil]

theorem VirtualServer.bodiesOf_objects (key : String) (server : Entries) (address : String) (virtualAddress : Entries) :
    bodiesOf (objects key server address virtualAddress) = [server, virtualAddress] := by
  rw [objects, bodiesOf, Value.bodies, bodiesOf_append, bodiesOf_object, bodiesOf_object]
  rfl

/-- Holds of the kinds that rules are attached to by the feature. -/
def Kind.hasRules : Kind → Bool
  | .virtualServer | .selfIp | .routeDomain => true
  | _ => false

/-- Holds when all objects of a document, or none of them, have rules attached. -/
def Output.RuledIf (ruled : Prop) (output : Output) : Prop :=
  ∀ doc, output.value = some doc → ∀ body ∈ bodiesOf doc.entries, "fw-rules" ∈ Assoc.keys body ↔ ruled

theorem Output.RuledIf.of_object {ruled : Prop} {key : Option String} {keys : List String} {name : String}
    {body : Entries} (h : "fw-rules" ∈ Assoc.keys body ↔ ruled) :
    Output.RuledIf ruled { key, value := some { entries := object keys name body } } := by
  rintro doc ⟨⟩ other hother
  rw [bodiesOf_object, List.mem_singleton] at hother
  rwa [hother]

/-- The entries of a modern self IP. -/
def SelfIp.body (selfIp : SelfIp) (suffix vlan : String) (rules : Option Value) : Entries :=
  let address := selfIp.address.address.render ++ suffix ++ "/" ++ toString selfIp.address.length
  let entries := [("address", .text address), ("allow-service", .block (toggles selfIp.allow))]
  match rules with
  | some block => entries ++ [("fw-rules", block), ("vlan", .text vlan)]
  | none => entries ++ [("vlan", .text vlan)]

/-- What the template of a self IP is filled with. -/
theorem SelfIp.put_eq_body (selfIp : SelfIp) (suffix vlan : String) (rules : Option Value) :
    Assoc.put (putRules rules (Assoc.put (Assoc.put [("address", .absent),
        ("allow-service", .block [("default", .toggle)]), ("fw-rules", .block []), ("vlan", .absent)]
        "address" (.text (selfIp.address.address.render ++ suffix ++ "/" ++ toString selfIp.address.length)))
        "allow-service" (.block (toggles selfIp.allow)))) "vlan" (.text vlan) = selfIp.body suffix vlan rules := by
  cases rules <;> simp [body, putRules, Assoc.put, Assoc.alter, Assoc.erase]

theorem SelfIp.mem_keys_body_iff (selfIp : SelfIp) (suffix vlan : String) (rules : Option Value) :
    "fw-rules" ∈ Assoc.keys (selfIp.body suffix vlan rules) ↔ rules.isSome = true := by
  cases rules <;> simp [body, Assoc.keys]

theorem SelfIp.erase_body (selfIp : SelfIp) (suffix vlan : String) (rules : Option Value) :
    Assoc.erase (selfIp.body suffix vlan rules) "fw-rules" = selfIp.body suffix vlan none := by
  cases rules <;> simp [body, Assoc.erase]

theorem attachedRules_isSome {rank : Nat} (rules : List AttachedRule) (scope : Scope) (low : 1 < rank) :
    (attachedRules true rules scope low).Ensures (fun _ _ => True) fun block =>
      block.isSome = true ↔ rules ≠ [] := by
  unfold attachedRules
  cases rules with
  | nil => exact iff_of_false Bool.false_ne_true (fun h => h rfl)
  | cons rule rules => exact .bind (.trivial _) fun block _ => iff_of_true rfl (List.cons_ne_nil _ _)

namespace Stamp

open Template Scope

theorem modernRecipe_ruledIf {stamp : Stamp} (hkind : stamp.kind.hasRules = true) {scope : Scope}
    (hafm : scope.context.feature "afm" = false) (hmodern : Dialect.ofVersion scope.context.version = .modern) :
    (stamp.modernRecipe scope (document stamp.kind .modern)).Ensures (fun _ _ => True)
      (Output.RuledIf (stamp.AttachesUngated scope.context)) := by
  have hnone (rules : List AttachedRule) :
      (attachedRules (scope.context.feature "afm") rules scope Nat.one_lt_two).Ensures (fun _ _ => True)
        (· = none) := by
    rw [hafm]
    exact rfl
  cases stamp with
  | virtualServer server =>
    refine .skipIf nofun (.bind (.trivial _) fun suffix _ => .bind (.trivial _) fun profiles _ => ?_)
    refine .bind (hnone server.rules) fun rules hrules => .bind (.trivial _) fun pool _ => ?_
    subst hrules
    refine .bind (.trivial _) fun destination _ => .bind_ok (VirtualServer.fillAs_server scope _ _) ?_
    refine .bind_ok (VirtualServer.fillAs_address scope _ _ _ _) ?_
    rintro doc ⟨⟩ body hbody
    rw [VirtualServer.bodiesOf_objects, List.mem_cons, List.mem_singleton] at hbody
    refine iff_of_false ?_ id
    rcases hbody with rfl | rfl
    · cases pool <;> simp [VirtualServer.serverTemplate, VirtualServer.putPool, putRules, Assoc.put, Assoc.alter,
        Assoc.erase, Assoc.keys]
    · simp [Assoc.put, Assoc.alter, Assoc.keys]
  | selfIp s =>
    simp only [modernRecipe, SelfIp.modern]
    cases hmanaged : scope.context.atLeast .bigiq 4 2 0 with
    | true => exact nofun
    | false =>
      refine .bind (.trivial _) fun suffix _ => .bind (.trivial _) fun vlan _ => ?_
      refine .bind (attachedRules_isSome s.rules scope Nat.one_lt_two) fun rules hrules => ?_
      refine .bind_ok (fillAs_object scope ["net", "self"] "$key" _ _ _) (Output.RuledIf.of_object ?_)
      rw [s.put_eq_body, s.mem_keys_body_iff, hrules]
      exact ⟨fun h => ⟨hmodern, hmanaged, h⟩, fun h => h.2.2⟩
  | routeDomain domain =>
    refine .bind (.trivial _) fun vlans _ => .bind (hnone domain.rules) fun rules hrules => ?_
    subst hrules
    refine .bind_ok (fillAs_object scope ["net", "route-domain"] "$name" _ _ _) (Output.RuledIf.of_object ?_)
    refine iff_of_false ?_ id
    cases domain.parent <;> cases vlans <;>
      simp [putRules, Assoc.put, Assoc.alter, Assoc.erase, Assoc.keys]
  | _ => cases hkind

theorem legacyRecipe_ruledIf {stamp : Stamp} (hkind : stamp.kind.hasRules = true) (scope : Scope) :
    (stamp.legacyRecipe scope (document stamp.kind .legacy)).Ensures (fun _ _ => True) (Output.RuledIf False) := by
  cases stamp with
  | virtualServer server =>
    refine .skipIf nofun (.bind (.trivial _) fun names _ => .bind (.trivial _) fun pool _ => ?_)
    refine .bind (.trivial _) fun destination _ => ?_
    refine .bind_ok (fillAs_object scope ["virtual"] "$name" _ _ _) (Output.RuledIf.of_object (iff_of_false ?_ id))
    cases pool <;> cases names <;> simp [VirtualServer.putPool, Assoc.put, Assoc.alter, Assoc.keys]
  | selfIp s =>
    refine .bind (.trivial _) fun vlan _ => ?_
    refine .bind_ok (fillAs_object scope ["self"] "$address" _ _ _) (Output.RuledIf.of_object (iff_of_false ?_ id))
    simp [Assoc.put, Assoc.alter, Assoc.keys]
  | routeDomain domain => exact nofun
  | _ => cases hkind

/-- Without the feature, the objects of a stamp have rules exactly if the stamp attaches them regardless. -/
theorem recipe_ruledIf {stamp : Stamp} (hkind : stamp.kind.hasRules = true) {scope : Scope}
    (hafm : scope.context.feature "afm" = false) :
    let dialect := stamp.dialect scope.context.version
    (stamp.recipe dialect scope (document stamp.kind dialect)).Ensures (fun _ _ => True)
      (Output.RuledIf (stamp.AttachesUngated scope.context)) := by
  have hdialect : stamp.dialect scope.context.version = Dialect.ofVersion scope.context.version := by
    cases stamp with
    | virtualServer | selfIp | routeDomain => rfl
    | _ => cases hkind
  rw [hdialect]
  cases hversion : Dialect.ofVersion scope.context.version with
  | modern => exact modernRecipe_ruledIf hkind hafm hversion
  | legacy =>
    have hgated : stamp.AttachesUngated scope.context = False := by
      cases stamp with
      | selfIp s => simp [AttachesUngated, hversion]
      | _ => rfl
    rw [hgated]
    exact legacyRecipe_ruledIf hkind scope

end Stamp

/-! ### Self IPs -/

theorem SelfIp.exists_of_modern {selfIp : SelfIp} {scope : Scope}
    {answer : (id : StampId) → (kind : Kind) → kind.rank < 2 → Except CompileError String} {output : Output}
    (hmanaged : scope.context.atLeast .bigiq 4 2 0 = false)
    (h : (selfIp.modern scope (Template.document .selfIp .modern)).run .error answer = .ok output) :
    ∃ suffix vlan rules, scope.routeDomainSuffix selfIp.routeDomain = .ok suffix ∧
      answer selfIp.vlan .vlan Nat.two_pos = .ok vlan ∧
      output = ⟨scope.path selfIp.name, some ⟨.braced, object ["net", "self"] (scope.path selfIp.name)
        (selfIp.body suffix vlan rules)⟩⟩ := by
  unfold modern at h
  rw [hmanaged, if_neg Bool.false_ne_true, Recipe.run_bind, Recipe.run_lift] at h
  obtain ⟨suffix, hsuffix, h⟩ := bind_eq_ok h
  rw [Recipe.run_bind] at h
  obtain ⟨vlan, hvlan, h⟩ := bind_eq_ok h
  rw [Recipe.run_bind] at h
  obtain ⟨rules, -, h⟩ := bind_eq_ok h
  rw [Recipe.run_bind, Recipe.run_lift] at h
  obtain ⟨template, hfill, h⟩ := bind_eq_ok h
  cases (Scope.fillAs_object scope ["net", "self"] "$key" _ _ _).symm.trans hfill
  cases h
  refine ⟨suffix, vlan, rules, hsuffix, (Recipe.run_key answer _ .vlan _).symm.trans hvlan, ?_⟩
  rw [← put_eq_body]

theorem SelfIp.eq_of_withoutRules {s t : SelfIp} (h : (Stamp.selfIp t).withoutRules = (Stamp.selfIp s).withoutRules) :
    t = { s with rules := t.rules } := by
  obtain ⟨⟩ := s
  obtain ⟨⟩ := t
  cases h
  rfl

/-- Two results that differ at most in one entry of the body of their object. -/
inductive Compiled.DiffersAt (entry : String) : Compiled → Compiled → Prop
  | same (compiled : Compiled) : DiffersAt entry compiled compiled
  | body {keys : List String} {name : String} {entries others : Entries} {key : Option String} {dialect : Dialect}
      (h : Assoc.erase entries entry = Assoc.erase others entry) :
      DiffersAt entry ⟨key, some ⟨.braced, object keys name entries⟩, dialect⟩
        ⟨key, some ⟨.braced, object keys name others⟩, dialect⟩

namespace Tree

theorem exists_body_of_compile {tree : Tree} (history : tree.History) {id : StampId} {selfIp : SelfIp}
    (hstamp : tree.stamp? id = some (.selfIp selfIp)) (hmodern : Dialect.ofVersion tree.context.version = .modern)
    (hmanaged : tree.context.atLeast .bigiq 4 2 0 = false) {compiled : Compiled}
    (hcompile : (tree.compile id history.ledger).1 = .ok compiled) :
    ∃ folder suffix vlan rules, tree.stampFolder? id = some folder ∧
      (tree.scope folder .selfIp).routeDomainSuffix selfIp.routeDomain = .ok suffix ∧
      tree.answer .selfIp selfIp.vlan .vlan = .ok vlan ∧
      compiled = ⟨(tree.scope folder .selfIp).path selfIp.name, some ⟨.braced, object ["net", "self"]
        ((tree.scope folder .selfIp).path selfIp.name) (selfIp.body suffix vlan rules)⟩, .modern⟩ := by
  obtain ⟨folder, output, hfolder, hrun, rfl⟩ := exists_run_of_compile history hstamp hcompile
  have hdialect : (Stamp.selfIp selfIp).dialect tree.context.version = .modern := hmodern
  rw [hdialect] at hrun ⊢
  obtain ⟨suffix, vlan, rules, hsuffix, hvlan, rfl⟩ := SelfIp.exists_of_modern hmanaged hrun
  exact ⟨folder, suffix, vlan, rules, hfolder, hsuffix, hvlan, rfl⟩

/-- The objects of a stamp have rules exactly if the stamp attaches them regardless. -/
theorem mem_keys_iff_attachesUngated {tree : Tree} (history : tree.History)
    (hafm : tree.context.feature "afm" = false) {id : StampId} {stamp : Stamp} (hstamp : tree.stamp? id = some stamp)
    (hkind : stamp.kind.hasRules = true) {compiled : Compiled}
    (hcompile : (tree.compile id history.ledger).1 = .ok compiled) {doc : Document}
    (hdoc : compiled.value = some doc) {body : Entries} (hbody : body ∈ bodiesOf doc.entries) :
    "fw-rules" ∈ Assoc.keys body ↔ stamp.AttachesUngated tree.context := by
  obtain ⟨folder, output, -, hrun, rfl⟩ := exists_run_of_compile history hstamp hcompile
  have hoff : (tree.scope folder stamp.kind).context.feature "afm" = false := hafm
  exact (Stamp.recipe_ruledIf hkind hoff).run (fun _ _ _ => .trivial _) output hrun doc hdoc body hbody

section TwoTrees

variable {a b : Tree} (ha : a.History) (hb : b.History) (hsame : a.withoutRules = b.withoutRules)
  (hafm : a.context.feature "afm" = false)

include hsame

theorem context_eq_of_withoutRules : b.context = a.context := (congrArg Tree.context hsame).symm

theorem stamp_eq_of_withoutRules {id : StampId} {stamp : Stamp} (hstamp : a.stamp? id = some stamp) :
    ∃ other, b.stamp? id = some other ∧ other.withoutRules = stamp.withoutRules := by
  have hbare := congrArg (fun tree => tree.stamp? id) hsame
  simp only [stamp?_withoutRules, hstamp, Option.map_some] at hbare
  exact Option.map_eq_some_iff.mp hbare.symm

include hafm

theorem compile_eq_of_withoutRules {id : StampId} (hgated : ¬ a.AttachesUngated id)
    (hother : ¬ b.AttachesUngated id) : (a.compile id ha.ledger).1 = (b.compile id hb.ledger).1 := by
  have hafm' : b.context.feature "afm" = false := by rwa [context_eq_of_withoutRules hsame]
  rw [ha.eq_of_gives (Compile.gives_compile a id), hb.eq_of_gives (Compile.gives_compile b id),
    ← outcome_withoutRules hafm hgated, ← outcome_withoutRules hafm' hother, hsame]

theorem answer_eq_of_withoutRules {kind : Kind} (hkind : kind ≠ .selfIp) (asker : Kind) (target : StampId) :
    b.answer asker target kind = a.answer asker target kind := by
  have hafm' : b.context.feature "afm" = false := by rwa [context_eq_of_withoutRules hsame]
  have hbare {tree : Tree} (hafm : tree.context.feature "afm" = false) :
      tree.withoutRules.answer asker target kind = tree.answer asker target kind := by
    refine answer_withoutRules fun slot _ hslot => result_withoutRules hafm slot.stamp slot.folder fun hself => ?_
    exact hkind (hslot.symm.trans hself.kind_eq)
  rw [← hbare hafm', ← hbare hafm, hsame]

theorem selfIp_differsAt {id : StampId} {s : SelfIp} (hstamp : a.stamp? id = some (.selfIp s))
    (hmodern : Dialect.ofVersion a.context.version = .modern) (hmanaged : a.context.atLeast .bigiq 4 2 0 = false)
    {compiled recompiled : Compiled} (hcompile : (a.compile id ha.ledger).1 = .ok compiled)
    (hrecompile : (b.compile id hb.ledger).1 = .ok recompiled) : compiled.DiffersAt "fw-rules" recompiled := by
  have hcontext := context_eq_of_withoutRules hsame
  have hscope (folder : FolderId) (kind : Kind) :
      (b.scope folder kind).withoutRules = (a.scope folder kind).withoutRules := by
    rw [← scope_withoutRules, ← scope_withoutRules, hsame]
  have hpath (folder : FolderId) (kind : Kind) (name : String) :
      (b.scope folder kind).path name = (a.scope folder kind).path name := by
    change (b.scope folder kind).withoutRules.path name = _
    rw [hscope]
    rfl
  obtain ⟨stamp, hother, hbare⟩ := stamp_eq_of_withoutRules hsame hstamp
  cases stamp with
  | selfIp t =>
    obtain ⟨rules, rfl⟩ : ∃ rules, t = { s with rules } := ⟨t.rules, SelfIp.eq_of_withoutRules hbare⟩
    obtain ⟨folder, suffix, vlan, block, hfolder, hsuffix, hvlan, rfl⟩ :=
      exists_body_of_compile ha hstamp hmodern hmanaged hcompile
    obtain ⟨folder', suffix', vlan', block', hfolder', hsuffix', hvlan', rfl⟩ :=
      exists_body_of_compile hb hother (hcontext ▸ hmodern) (hcontext ▸ hmanaged) hrecompile
    rw [← stampFolder?_withoutRules, ← hsame, stampFolder?_withoutRules, hfolder] at hfolder'
    cases hfolder'
    rw [← Scope.routeDomainSuffix_withoutRules, hscope, Scope.routeDomainSuffix_withoutRules, hsuffix] at hsuffix'
    cases hsuffix'
    rw [answer_eq_of_withoutRules hsame hafm (by decide), hvlan] at hvlan'
    cases hvlan'
    rw [hpath]
    refine .body ?_
    rw [SelfIp.erase_body, SelfIp.erase_body]
    rfl
  | _ => cases hbare

/-- Whatever the rules are, they make a difference to one entry only. -/
theorem differsAt_of_withoutRules {id : StampId} {compiled recompiled : Compiled}
    (hcompile : (a.compile id ha.ledger).1 = .ok compiled) (hrecompile : (b.compile id hb.ledger).1 = .ok recompiled) :
    compiled.DiffersAt "fw-rules" recompiled := by
  by_cases hself : ∃ s, a.stamp? id = some (.selfIp s) ∧ Dialect.ofVersion a.context.version = .modern ∧
      a.context.atLeast .bigiq 4 2 0 = false
  · obtain ⟨s, hstamp, hmodern, hmanaged⟩ := hself
    exact selfIp_differsAt ha hb hsame hafm hstamp hmodern hmanaged hcompile hrecompile
  · have hgated : ¬ a.AttachesUngated id := by
      rintro ⟨stamp, hstamp, hungated⟩
      obtain ⟨s, rfl, hmodern, hmanaged⟩ := hungated.exists_selfIp
      exact hself ⟨s, hstamp, hmodern, hmanaged⟩
    have hother : ¬ b.AttachesUngated id := by
      rintro ⟨stamp, hstamp, hungated⟩
      rw [context_eq_of_withoutRules hsame] at hungated
      obtain ⟨t, rfl, hmodern, hmanaged⟩ := hungated.exists_selfIp
      obtain ⟨stamp, hstamp, hbare⟩ := stamp_eq_of_withoutRules hsame.symm hstamp
      cases stamp with
      | selfIp s => exact hself ⟨s, hstamp, hmodern, hmanaged⟩
      | _ => cases hbare
    have heq := compile_eq_of_withoutRules ha hb hsame hafm hgated hother
    rw [hcompile, hrecompile] at heq
    cases heq
    exact .same compiled

/-- Without the feature, two trees that differ in the rules of virtual servers, self IPs and route domains only are compiled alike, and nothing that is compiled has rules. The one exception are modern self IPs, which have their rules in any case and differ in nothing else. -/
theorem compile_gated (id : StampId) :
    (¬ a.AttachesUngated id → ¬ b.AttachesUngated id → (a.compile id ha.ledger).1 = (b.compile id hb.ledger).1) ∧
      (∀ compiled recompiled, (a.compile id ha.ledger).1 = .ok compiled →
        (b.compile id hb.ledger).1 = .ok recompiled → compiled.DiffersAt "fw-rules" recompiled) ∧
      ∀ stamp compiled doc, a.stamp? id = some stamp → stamp.kind.hasRules = true →
        (a.compile id ha.ledger).1 = .ok compiled → compiled.value = some doc →
        ∀ body ∈ bodiesOf doc.entries, "fw-rules" ∈ Assoc.keys body ↔ stamp.AttachesUngated a.context := by
  refine ⟨compile_eq_of_withoutRules ha hb hsame hafm, ?_, ?_⟩
  · intro compiled recompiled hcompile hrecompile
    exact differsAt_of_withoutRules ha hb hsame hafm hcompile hrecompile
  · intro stamp compiled doc hstamp hkind hcompile hdoc body hbody
    exact mem_keys_iff_attachesUngated ha hafm hstamp hkind hcompile hdoc hbody

end TwoTrees

/-- A virtual server, a self IP and a route domain, with the same rules attached to each. -/
def ruled (rules : List AttachedRule) : List Operation := [
  .hookStamp 1 (.vlan { name := "internal" }),
  .hookStamp 1 (.virtualServer { name := "vs", address := "10.0.0.9", port := 443, rules }),
  .hookStamp 1 (.selfIp {
    address := ⟨.v4 0x0A000101, 24, by decide⟩, vlan := 1, name := "gw", allow := [], rules }),
  .hookStamp 1 (.routeDomain { id := 7, name := "rd", rules })]

theorem ruled_withoutRules (context : Context) (rules others : List AttachedRule) :
    (Session.runFrom context (some 0) (ruled rules)).tree.withoutRules =
      (Session.runFrom context (some 0) (ruled others)).tree.withoutRules := by
  cbv

/-- A virtual server does not mind that a list is missing. -/
theorem compile_gated_ruled :
    let context : Context := { version := .release .bigip 11 5 0 }
    let a := (Session.runFrom context (some 0) (ruled [.inline { name := "r" }])).tree
    let b := (Session.runFrom context (some 0) (ruled [.list 9])).tree
    let ha := History.ofSession context (some 0) (ruled [.inline { name := "r" }])
    let hb := History.ofSession context (some 0) (ruled [.list 9])
    a.withoutRules = b.withoutRules ∧ a.context.feature "afm" = false ∧
      ∃ compiled doc, (a.compile 2 ha.ledger).1 = .ok compiled ∧ (b.compile 2 hb.ledger).1 = .ok compiled ∧
        compiled.value = some doc ∧ ∀ body ∈ bodiesOf doc.entries, "fw-rules" ∉ Assoc.keys body := by
  intro context a b ha hb
  have hsame : a.withoutRules = b.withoutRules := ruled_withoutRules context _ _
  have hafm : a.context.feature "afm" = false := by decide +kernel
  have hkind (tree : Tree) (h : (tree.stamp? 2).map Stamp.kind = some .virtualServer) : ¬ tree.AttachesUngated 2 := by
    rintro ⟨stamp, hstamp, hungated⟩
    rw [hstamp, Option.map_some, hungated.kind_eq] at h
    cases h
  have hserver : (a.stamp? 2).map Stamp.kind = some .virtualServer := by decide +kernel
  have hgated : ¬ a.AttachesUngated 2 := hkind a hserver
  have hother : ¬ b.AttachesUngated 2 := hkind b (by decide +kernel)
  have hwritten : (a.compile 2 ha.ledger).1.toOption.map (fun compiled => compiled.value.isSome) = some true := by
    decide +kernel
  obtain ⟨compiled, hcompile, hvalue⟩ := exists_eq_ok_of_toOption hwritten
  obtain ⟨doc, hdoc⟩ := Option.isSome_iff_exists.mp hvalue
  obtain ⟨stamp, hstamp, hstampKind⟩ := Option.map_eq_some_iff.mp hserver
  obtain ⟨hequal, -, hkeys⟩ := compile_gated ha hb hsame hafm 2
  refine ⟨hsame, hafm, compiled, doc, hcompile, (hequal hgated hother).symm.trans hcompile, hdoc, ?_⟩
  intro body hbody hmem
  have hungated := (hkeys stamp compiled doc hstamp (by rw [hstampKind]; rfl) hcompile hdoc body hbody).mp hmem
  exact hgated ⟨stamp, hstamp, hungated⟩

/-- A self IP has its rules though the feature is off. -/
theorem rules_ungated :
    let context : Context := { version := .release .bigip 11 5 0 }
    let text (rules : List AttachedRule) :=
      let session := Session.runFrom context (some 0) (ruled rules)
      ((session.tree.compile 3 session.ledger).1.toOption.bind Compiled.value).map (Document.encode · 4)
    context.feature "afm" = false ∧
      text [] = some "net self /Common/gw \x7b\n    address 10.0.1.1/24\n    allow-service \x7b\x7d\n    vlan /Common/internal\n\x7d\n" ∧
      text [.inline { name := "r" }] = some "net self /Common/gw \x7b\n    address 10.0.1.1/24\n    allow-service \x7b\x7d\n    fw-rules \x7b\n        r \x7b\n            action accept\n        \x7d\n    \x7d\n    vlan /Common/internal\n\x7d\n" := by
  decide +kernel

end Tree

end ApplianceConfig
