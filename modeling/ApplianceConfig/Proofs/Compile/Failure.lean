import ApplianceConfig.Proofs.Compile.Refinement
import ApplianceConfig.Proofs.Network.Address
import ApplianceConfig.Proofs.Template.Document

/-!
# How recipes fail

A recipe that is run on its own kind's template fails only for reasons that lie in the tree: a stamp that is missing, of another kind or hooked onto no folder, or a text that is no address. The blocks that it fills are all in the template, and no new name collides with one that is there.
-/

namespace ApplianceConfig

namespace CompileError

/-- Holds of the failures that only a defect of the compiler itself could lead to. -/
def internal : CompileError → Bool
  | .grammar _ | .templateShape .. | .referenceCycle _ => true
  | .reference _ source => source.internal
  | _ => false

/-- The number of references that a failure went through. -/
def depth : CompileError → Nat
  | .reference _ source => source.depth + 1
  | _ => 0

/-- Holds of the failures that are not internal and went through a limited number of references. -/
def Sound (bound : Nat) (e : CompileError) : Prop := e.internal = false ∧ e.depth ≤ bound

end CompileError

/-- A computation fails, if it does, not internally and after a limited number of references. -/
def Proper {α : Type} (bound : Nat) (x : Except CompileError α) : Prop :=
  ∀ e, x = .error e → e.Sound bound

namespace Proper

variable {α β : Type} {bound : Nat}

theorem ok (a : α) : Proper bound (.ok a) := nofun

theorem error {e : CompileError} (h : e.Sound bound) :
    Proper bound (.error e : Except CompileError α) := by
  intro other hother
  cases hother
  exact h

theorem mono {more : Nat} (hle : bound ≤ more) {x : Except CompileError α} (h : Proper bound x) :
    Proper more x := fun e he => ⟨(h e he).1, Nat.le_trans (h e he).2 hle⟩

theorem bind {x : Except CompileError α} (h : Proper bound x) {f : α → Except CompileError β}
    (hnext : ∀ a, Proper bound (f a)) : Proper bound (x >>= f) := by
  cases x with
  | error e => exact error (h e rfl)
  | ok a => exact hnext a

theorem bind_ok {x : Except CompileError α} {a : α} (h : x = .ok a)
    {f : α → Except CompileError β} (hnext : Proper bound (f a)) : Proper bound (x >>= f) := by
  rw [h]
  exact hnext

theorem of_eq_ok {x : Except CompileError α} {a : α} (h : x = .ok a) : Proper bound x := by
  rw [h]
  exact ok a

theorem skipIf {skip : Bool} {output : α} {x : Except CompileError α} (h : Proper bound x) :
    Proper bound (if skip then pure output else x) := by
  cases skip
  · exact h
  · exact ok output

theorem mapM {f : α → Except CompileError β} (h : ∀ a, Proper bound (f a)) (items : List α) :
    Proper bound (items.mapM f) :=
  mapM_related (n := Except CompileError) (fun _ x _ => Proper bound x) ok
    (fun h hnext => h.bind hnext) (g := f) h items

end Proper

namespace Recipe

variable {rank : Nat} {α β : Type}

/-- The recipe fails in no other way than by itself and not internally, whatever the answers to its questions are. -/
inductive Proper : Recipe rank α → Prop
  | done (result : α) : Proper (.done result)
  | fail {e : CompileError} (h : e.Sound 0) : Proper (.fail e)
  | refer (id : StampId) (kind : Kind) (lower : kind.rank < rank) {next : String → Recipe rank α}
      (h : ∀ key, Proper (next key)) : Proper (.refer id kind lower next)

namespace Proper

theorem bind {x : Recipe rank α} (h : Proper x) {f : α → Recipe rank β}
    (hnext : ∀ a, Proper (f a)) : Proper (x >>= f) := by
  change Proper (x.andThen f)
  induction h with
  | done result => exact hnext result
  | fail h => exact .fail h
  | refer id kind lower _ ih => exact .refer id kind lower ih

theorem lift {x : Except CompileError α} (h : ApplianceConfig.Proper 0 x) :
    Proper (liftM x : Recipe rank α) := by
  cases x with
  | error e => exact .fail (h e rfl)
  | ok a => exact .done a

theorem ofExcept {x : Except CompileError α} (h : ApplianceConfig.Proper 0 x) :
    Proper (.ofExcept x : Recipe rank α) := lift h

theorem bind_ok {x : Except CompileError α} {a : α} (h : x = .ok a) {f : α → Recipe rank β}
    (hnext : Proper (f a)) : Proper ((liftM x : Recipe rank α) >>= f) := by
  rw [h]
  exact hnext

theorem skipIf {skip : Bool} {output : α} {x : Recipe rank α} (h : Proper x) :
    Proper (if skip then pure output else x) := by
  cases skip
  · exact h
  · exact .done output

theorem mapM {f : α → Recipe rank β} (h : ∀ a, Proper (f a)) (items : List α) :
    Proper (items.mapM f) :=
  mapM_related (n := Recipe rank) (fun _ x _ => Proper x) .done (fun h hnext => h.bind hnext) (g := f) h items

theorem key (id : StampId) (kind : Kind) (lower : kind.rank < rank) : Proper (.key id kind lower) :=
  .refer id kind lower .done

theorem run {recipe : Recipe rank α} (h : recipe.Proper) {bound : Nat}
    {answer : (id : StampId) → (kind : Kind) → kind.rank < rank → Except CompileError String}
    (hanswer : ∀ id kind lower, ApplianceConfig.Proper bound (answer id kind lower)) :
    ApplianceConfig.Proper bound (recipe.run .error answer) := by
  induction h with
  | done result => exact .ok result
  | fail h => exact .error ⟨h.1, Nat.le_trans h.2 (Nat.zero_le bound)⟩
  | refer id kind lower _ ih => exact (hanswer id kind lower).bind ih

end Proper

end Recipe

/-! ### Filling objects -/

theorem Assoc.rename?_single {α : Type} (old new : String) (value : α) :
    rename? [(old, value)] old new = some [(new, value)] := by
  by_cases h : new = old
  · subst h
    simp [rename?, contains, get?]
  · simp [rename?, contains, get?, rekey, h, Ne.symm h]

namespace Entries

@[simp] theorem modifyBlock?_nil (entries : Entries) (f : Entries → Option Entries) :
    entries.modifyBlock? [] f = f entries := rfl

@[simp] theorem modifyBlock?_cons_self (key : String) (style : Style) (inner rest : Entries)
    (path : List String) (f : Entries → Option Entries) :
    modifyBlock? ((key, .map style inner) :: rest) (key :: path) f =
      (inner.modifyBlock? path f).map fun changed => (key, .map style changed) :: rest := by
  simp [modifyBlock?, Assoc.modify?, Option.map_map, Function.comp_def]

@[simp] theorem modifyBlock?_cons_of_ne {other key : String} (h : other ≠ key) (value : Value)
    (rest : Entries) (path : List String) (f : Entries → Option Entries) :
    modifyBlock? ((other, value) :: rest) (key :: path) f =
      (rest.modifyBlock? (key :: path) f).map ((other, value) :: ·) := by
  simp [modifyBlock?, Assoc.modify?, h]

theorem modifyBlock?_object (keys : List String) (name : String) (entries : Entries)
    (f : Entries → Entries) :
    modifyBlock? (object keys name entries) (keys ++ [name]) (some ∘ f) =
      some (object keys name (f entries)) := by
  induction keys with
  | nil => simp [object, Value.block]
  | cons key keys ih => simp [object, ih]

theorem renameAt?_object (keys : List String) (name new : String) (entries : Entries) :
    renameAt? (object keys name entries) (keys ++ [name]) new = some (object keys new entries) := by
  have hkeys : modifyBlock? (object keys name entries) keys (Assoc.rename? · name new) =
      some (object keys new entries) := by
    induction keys with
    | nil => exact Assoc.rename?_single name new (Value.block entries)
    | cons key keys ih => simp [object, ih]
  simp [renameAt?, hkeys]

end Entries

namespace Scope

variable (scope : Scope)

theorem fillAs_object (keys : List String) (name new : String) (entries : Entries)
    (f : Entries → Entries) :
    scope.fillAs { entries := object keys name entries } (keys ++ [name]) new f =
      .ok { entries := object keys new (f entries) } := by
  simp only [fillAs, Document.renameAt?, Entries.renameAt?_object, Option.map_some,
    Option.bind_some, List.dropLast_concat, Entries.modifyBlock?_object]

/-! ### Parts of recipes -/

theorem stamp_proper (id : StampId) : Proper 0 (scope.stamp id) := by
  unfold stamp
  cases scope.stamp? id with
  | none => exact .error ⟨rfl, Nat.le_refl 0⟩
  | some stamp => exact .ok stamp

theorem stampPath_proper (id : StampId) (name : String) : Proper 0 (scope.stampPath id name) := by
  unfold stampPath
  cases scope.hookPath? id with
  | none => exact (scope.stamp_proper id).bind fun stamp => .error ⟨rfl, Nat.le_refl 0⟩
  | some path => exact .ok _

theorem routeDomainSuffix_proper (routeDomain : Option StampId) :
    Proper 0 (scope.routeDomainSuffix routeDomain) := by
  cases routeDomain with
  | none => exact .ok _
  | some id =>
    refine (scope.stamp_proper id).bind fun stamp => ?_
    cases stamp with
    | routeDomain domain => exact .ok _
    | _ => exact .error ⟨rfl, Nat.le_refl 0⟩

end Scope

section Rules

variable {rank : Nat}

theorem keySet_proper (ids : List StampId) (kind : Kind) (lower : kind.rank < rank) :
    (keySet ids kind lower).Proper :=
  (Recipe.Proper.mapM (fun id => .key id kind lower) ids).bind fun _ => .done _

theorem RuleMatch.part_proper {α : Type} (name : String) (items : List α) {value : Recipe rank Value}
    (h : value.Proper) : (part name items value).Proper :=
  .skipIf (h.bind fun _ => .done _)

theorem RuleMatch.entries_proper (side : RuleMatch) (low : 0 < rank) : (side.entries low).Proper := by
  refine (part_proper _ _ (keySet_proper _ _ _)).bind fun addressLists => ?_
  refine (part_proper _ _ (.done _)).bind fun addresses => ?_
  refine (part_proper _ _ (keySet_proper _ _ _)).bind fun portLists => ?_
  refine (part_proper _ _ (.done _)).bind fun ports => ?_
  exact (part_proper _ _ (keySet_proper _ _ _)).bind fun vlans => .done _

theorem Rule.side_proper (name : String) (side : RuleMatch) (low : 0 < rank) :
    (Rule.side name side low).Proper :=
  .skipIf ((side.entries_proper low).bind fun _ => .done _)

theorem Rule.body_proper (rule : Rule) (low : 0 < rank) : (rule.body low).Proper := by
  refine (side_proper _ _ low).bind fun destination => ?_
  exact (side_proper _ _ low).bind fun source => .done _

theorem AttachedRule.entry_proper (rule : AttachedRule) (scope : Scope) (low : 1 < rank) :
    (rule.entry scope low).Proper := by
  cases rule with
  | inline rule => exact (rule.body_proper _).bind fun body => .done _
  | list id =>
    refine (Recipe.Proper.lift (scope.stamp_proper id)).bind fun stamp => ?_
    cases stamp with
    | ruleList rules => exact (Recipe.Proper.key id .ruleList low).bind fun key => .done _
    | _ => exact .fail ⟨rfl, Nat.le_refl 0⟩

theorem AttachedRule.block_proper (rules : List AttachedRule) (scope : Scope) (low : 1 < rank) :
    (AttachedRule.block rules scope low).Proper :=
  (Recipe.Proper.mapM (fun rule => rule.entry_proper scope low) rules).bind fun _ => .done _

theorem attachedRules_proper (attach : Bool) (rules : List AttachedRule) (scope : Scope)
    (low : 1 < rank) : (attachedRules attach rules scope low).Proper := by
  unfold attachedRules
  split
  · exact (AttachedRule.block_proper rules scope low).bind fun block => .done _
  · exact .done none

end Rules

theorem portSeparator_proper (address : String) : Proper 0 (portSeparator address) := by
  unfold portSeparator
  cases Address.parse? address with
  | none => exact .error ⟨rfl, Nat.le_refl 0⟩
  | some ip => exact .ok _

namespace Member

theorem target_proper (member : Member) (scope : Scope) : Proper 0 (member.target scope) := by
  refine (scope.stamp_proper member.node).bind fun stamp => ?_
  cases stamp with
  | node node => exact .ok node
  | _ => exact .error ⟨rfl, Nat.le_refl 0⟩

theorem separator_proper (node : Node) (key : String) : Proper 0 (separator node key) := by
  unfold separator
  split
  · exact portSeparator_proper key
  · exact .ok ":"

theorem modernEntry_proper (member : Member) (scope : Scope) : (member.modernEntry scope).Proper := by
  refine (Recipe.Proper.lift (member.target_proper scope)).bind fun node => ?_
  refine (Recipe.Proper.key member.node .node Nat.one_pos).bind fun key => ?_
  exact (Recipe.Proper.lift (separator_proper node key)).bind fun separator => .done _

theorem legacyEntries_proper (member : Member) (scope : Scope) : Proper 0 (member.legacyEntries scope) := by
  refine (member.target_proper scope).bind fun node => ?_
  exact (portSeparator_proper node.address).bind fun separator => .ok _

end Member

namespace VirtualServer

theorem destination_proper (server : VirtualServer) (scope : Scope) :
    Proper 0 (server.destination scope) := by
  refine (portSeparator_proper server.address).bind fun separator => ?_
  exact (scope.routeDomainSuffix_proper server.routeDomain).bind fun suffix => .ok _

theorem profile_proper (scope : Scope) (id : StampId) : Proper 0 (profile scope id) := by
  refine (scope.stamp_proper id).bind fun stamp => ?_
  cases stamp with
  | profile profile => exact .ok profile
  | _ => exact .error ⟨rfl, Nat.le_refl 0⟩

theorem profileNames_proper (server : VirtualServer) (scope : Scope) :
    Proper 0 (server.profileNames scope) :=
  (Proper.mapM (profile_proper scope) server.profiles).bind fun _ => .ok _

theorem profileEntries_proper (server : VirtualServer) (scope : Scope) :
    Proper 0 (server.profileEntries scope) := by
  refine .mapM (fun id => ?_) server.profiles
  refine (profile_proper scope id).bind fun profile => ?_
  exact (scope.stampPath_proper id profile.name).bind fun path => .ok _

theorem poolKey_proper (server : VirtualServer) : server.poolKey.Proper := by
  unfold poolKey
  cases server.pool with
  | none => exact .done none
  | some id => exact (Recipe.Proper.key id .pool Nat.one_lt_two).bind fun key => .done _

end VirtualServer

/-! ### Templates of several objects -/

namespace Partition

theorem modern_eq_ok (settings : Partition) (scope : Scope) :
    ∃ output, settings.modern scope (Template.document .partition .modern) = .ok output := by
  simp [modern, Template.document, Template.modernEntries, Template.folderMarker, object, Value.block,
    Scope.fillAs, Scope.fill, Document.renameAt?, Entries.renameAt?, Assoc.rename?_single,
    bind, Except.bind, pure, Except.pure]

theorem legacy_eq_ok (settings : Partition) (scope : Scope) :
    ∃ output, settings.legacy scope (Template.document .partition .legacy) = .ok output := by
  simp [legacy, Template.document, Template.legacyEntries, object, Value.block,
    Scope.fillAs, Scope.fill, Document.renameAt?, Entries.renameAt?, Assoc.rename?_single,
    bind, Except.bind, pure, Except.pure]

end Partition

namespace Platform

theorem modern_eq_ok (platform : Platform) (scope : Scope) :
    ∃ output, platform.modern scope (Template.document .platform .modern) = .ok output := by
  cases hdhcp : platform.dhcp <;>
    simp [modern, hdhcp, Template.document, Template.modernEntries, object, Value.block,
      Scope.fillAs, Scope.fill, Document.renameAt?, Entries.renameAt?, Assoc.rename?_single,
      bind, Except.bind, pure, Except.pure]

theorem render_ne_of_not_isAddressText {address : Address} {text : String}
    (h : Address.isAddressText text = false) : address.render ≠ text := by
  rintro rfl
  rw [address.isAddressText_render] at h
  cases h

theorem render_ne_route (address : Address) : address.render ≠ "route" := render_ne_of_not_isAddressText (by decide)

/-- The entry that takes the management address as its name stands beside the one of the route, so the address must not be that name. -/
theorem rename?_ip (address : Address) (value route : Value) :
    Assoc.rename? [("$ip", value), ("route", route)] "$ip" address.render =
      some [(address.render, value), ("route", route)] := by
  have hip : address.render ≠ "$ip" := render_ne_of_not_isAddressText (by decide)
  have hroute := render_ne_route address
  simp [Assoc.rename?, Assoc.contains, Assoc.get?, Assoc.rekey, hip, Ne.symm hip, Ne.symm hroute]

theorem legacy_eq_ok (platform : Platform) (scope : Scope) :
    ∃ output, platform.legacy scope (Template.document .platform .legacy) = .ok output := by
  simp [legacy, Template.document, Template.legacyEntries, object, Value.block, Scope.fillAs,
    Scope.fill, Document.renameAt?, Entries.renameAt?, rename?_ip, render_ne_route,
    bind, Except.bind, pure, Except.pure]

end Platform

theorem VirtualServer.fillAs_eq_ok (scope : Scope) (key address : String) (f g : Entries → Entries) :
    ∃ first second,
      scope.fillAs (Template.document .virtualServer .modern) ["ltm", "virtual", "$key"] key f =
        .ok first ∧
      scope.fillAs first ["ltm", "virtual-address", "$key_va"] address g = .ok second := by
  simp [Template.document, Template.modernEntries, object, Value.block, Scope.fillAs,
    Document.renameAt?, Entries.renameAt?, Assoc.rename?_single]

/-! ### Recipes on their templates -/

namespace Stamp

open Template Scope

theorem modernRecipe_proper (stamp : Stamp) (scope : Scope) :
    (stamp.modernRecipe scope (document stamp.kind .modern)).Proper := by
  cases stamp with
  | partition settings =>
    obtain ⟨output, hok⟩ := settings.modern_eq_ok scope
    exact .ofExcept (.of_eq_ok hok)
  | folder => exact .ofExcept (.bind_ok (fillAs_object scope ["sys", "folder"] "$key" _ _ _) (.ok _))
  | raw object => exact .done _
  | node node =>
    refine .ofExcept (.skipIf ?_)
    refine (scope.routeDomainSuffix_proper node.routeDomain).bind fun suffix => ?_
    exact .bind_ok (fillAs_object scope ["ltm", "node"] "$key" _ _ _) (.ok _)
  | pool pool =>
    refine .skipIf ?_
    refine (Recipe.Proper.mapM (fun member => member.modernEntry_proper scope) _).bind fun members => ?_
    exact .bind_ok (fillAs_object scope ["ltm", "pool"] "$key" _ _ _) (.done _)
  | virtualServer server =>
    refine .skipIf ?_
    refine (Recipe.Proper.lift (scope.routeDomainSuffix_proper server.routeDomain)).bind fun suffix => ?_
    refine (Recipe.Proper.lift (server.profileEntries_proper scope)).bind fun profiles => ?_
    refine (attachedRules_proper _ server.rules scope Nat.one_lt_two).bind fun rules => ?_
    refine server.poolKey_proper.bind fun pool => ?_
    refine (Recipe.Proper.lift (server.destination_proper scope)).bind fun destination => ?_
    obtain ⟨first, second, hfirst, hsecond⟩ := VirtualServer.fillAs_eq_ok scope (scope.path server.name)
      (scope.path server.address)
      (fun entries => VirtualServer.putPool pool (putRules rules (Assoc.put (Assoc.put entries
        "destination" (.text destination)) "profiles" (.block (Assoc.putAll [] profiles)))))
      (Assoc.put · "address" (.text (server.address ++ suffix)))
    exact .bind_ok hfirst (.bind_ok hsecond (.done _))
  | profile profile => exact .done _
  | selfIp selfIp =>
    refine .skipIf ?_
    refine (Recipe.Proper.lift (scope.routeDomainSuffix_proper selfIp.routeDomain)).bind fun suffix => ?_
    refine (Recipe.Proper.key selfIp.vlan .vlan Nat.two_pos).bind fun vlan => ?_
    refine (attachedRules_proper true selfIp.rules scope Nat.one_lt_two).bind fun rules => ?_
    exact .bind_ok (fillAs_object scope ["net", "self"] "$key" _ _ _) (.done _)
  | trunk trunk => exact .ofExcept (.bind_ok (fillAs_object scope ["net", "trunk"] "$name" _ _ _) (.ok _))
  | vlan vlan => exact .ofExcept (.bind_ok (fillAs_object scope ["net", "vlan"] "$name" _ _ _) (.ok _))
  | routeDomain domain =>
    refine (Recipe.Proper.mapM (fun id => .key id .vlan Nat.two_pos) _).bind fun vlans => ?_
    refine (attachedRules_proper _ domain.rules scope Nat.one_lt_two).bind fun rules => ?_
    exact .bind_ok (fillAs_object scope ["net", "route-domain"] "$name" _ _ _) (.done _)
  | provision provision =>
    exact .ofExcept (.bind_ok (fillAs_object scope ["sys", "provision"] "$name" _ _ _) (.ok _))
  | defaults => exact .done _
  | platform platform =>
    obtain ⟨output, hok⟩ := platform.modern_eq_ok scope
    exact .ofExcept (.of_eq_ok hok)
  | dns dns => exact .done _
  | ntp ntp => exact .done _
  | mail mail =>
    refine .ofExcept (.skipIf ?_)
    exact .bind_ok (fillAs_object scope ["sys", "smtp-server"] "$key" _ _ _) (.ok _)
  | user user => exact .ofExcept (.bind_ok (fillAs_object scope ["auth", "user"] "$name" _ _ _) (.ok _))
  | addressList list =>
    refine .ofExcept (.skipIf ?_)
    exact .bind_ok (fillAs_object scope ["security", "firewall", "address-list"] "$key" _ _ _) (.ok _)
  | portList list =>
    refine .ofExcept (.skipIf ?_)
    exact .bind_ok (fillAs_object scope ["security", "firewall", "port-list"] "$key" _ _ _) (.ok _)
  | ruleList list =>
    refine .skipIf ?_
    have hrule (rule : Rule) : Recipe.Proper (do
        let body ← rule.body Nat.one_pos
        return (rule.name, body) : Recipe 1 (String × Value)) :=
      (rule.body_proper Nat.one_pos).bind fun body => .done _
    refine (Recipe.Proper.mapM hrule list.rules).bind fun rules => ?_
    exact .bind_ok (fillAs_object scope ["security", "firewall", "rule-list"] "$key" _ _ _) (.done _)
  | firewall firewall =>
    refine .skipIf ?_
    refine (AttachedRule.block_proper firewall.rules scope Nat.one_lt_two).bind fun rules => ?_
    exact .bind_ok (fillAs_object scope ["security", "firewall"] "$context" _ _ _) (.done _)

theorem legacyRecipe_proper (stamp : Stamp) (scope : Scope) :
    (stamp.legacyRecipe scope (document stamp.kind .legacy)).Proper := by
  cases stamp with
  | partition settings =>
    obtain ⟨output, hok⟩ := settings.legacy_eq_ok scope
    exact .ofExcept (.of_eq_ok hok)
  | raw object => exact .done _
  | node node =>
    refine .ofExcept (.skipIf ?_)
    exact .bind_ok (fillAs_object scope ["node"] "$address" _ _ _) (.ok _)
  | pool pool =>
    refine .ofExcept (.skipIf ?_)
    refine (Proper.mapM (fun member => member.legacyEntries_proper scope) _).bind fun members => ?_
    exact .bind_ok (fillAs_object scope ["pool"] "$name" _ _ _) (.ok _)
  | virtualServer server =>
    refine .skipIf ?_
    refine (Recipe.Proper.lift (server.profileNames_proper scope)).bind fun names => ?_
    refine server.poolKey_proper.bind fun pool => ?_
    refine (Recipe.Proper.lift (server.destination_proper scope)).bind fun destination => ?_
    exact .bind_ok (fillAs_object scope ["virtual"] "$name" _ _ _) (.done _)
  | selfIp selfIp =>
    refine (Recipe.Proper.key selfIp.vlan .vlan Nat.two_pos).bind fun vlan => ?_
    exact .bind_ok (fillAs_object scope ["self"] "$address" _ _ _) (.done _)
  | vlan vlan => exact .ofExcept (.bind_ok (fillAs_object scope ["vlan"] "$name" _ _ _) (.ok _))
  | provision provision =>
    refine .ofExcept (.skipIf ?_)
    exact .bind_ok (fillAs_object scope ["provision"] "$name" _ _ _) (.ok _)
  | defaults => exact .done _
  | platform platform =>
    obtain ⟨output, hok⟩ := platform.legacy_eq_ok scope
    exact .ofExcept (.of_eq_ok hok)
  | dns dns => exact .done _
  | ntp ntp => exact .done _
  | user user => exact .ofExcept (.bind_ok (fillAs_object scope ["user"] "$name" _ _ _) (.ok _))
  | folder | profile _ | trunk _ | routeDomain _ | mail _ | addressList _ | portList _ | ruleList _
  | firewall _ => exact .done _

theorem recipe_proper (stamp : Stamp) (dialect : Dialect) (scope : Scope) :
    (stamp.recipe dialect scope (document stamp.kind dialect)).Proper := by
  cases dialect with
  | modern => exact stamp.modernRecipe_proper scope
  | legacy => exact stamp.legacyRecipe_proper scope

end Stamp

end ApplianceConfig
