import ApplianceConfig.Proofs.Compile.Failure
import ApplianceConfig.Proofs.Compile.Questions
import ApplianceConfig.Proofs.Tree.Arena

/-!
# What can be wrong with a stamp

A stamp names other stamps, each for an object of some kind, and some of its texts have to be addresses. Each failure of its recipe lies in one of these: a stamp that is missing, hooked onto no folder or of another kind, or a text that is no address. Keys are asked for only from kinds that have keys, though not all of these have one on every release.
-/

namespace ApplianceConfig

/-! ### What stamps rest on -/

/-- The stamps that a stamp refers to, each with the kind that it has to be of. -/
def Stamp.uses : Stamp → List (StampId × Kind)
  | .node s => s.routeDomain.toList.map (·, .routeDomain)
  | .pool s => s.members.map fun m => (m.node, .node)
  | .virtualServer s =>
    s.profiles.map (·, .profile) ++ s.rules.flatMap AttachedRule.questions ++
      s.pool.toList.map (·, .pool) ++ s.routeDomain.toList.map (·, .routeDomain)
  | .selfIp s =>
    (s.vlan, .vlan) :: s.rules.flatMap AttachedRule.questions ++
      s.routeDomain.toList.map (·, .routeDomain)
  | .routeDomain s => s.vlans.map (·, .vlan) ++ s.rules.flatMap AttachedRule.questions
  | .ruleList s => s.rules.flatMap Rule.questions
  | .firewall s => s.rules.flatMap AttachedRule.questions
  | _ => []

theorem map_fst_pairs (ids : List StampId) (kind : Kind) : (ids.map (·, kind)).map Prod.fst = ids := by
  rw [List.map_map]
  exact List.map_id ids

theorem RuleMatch.map_fst_questions (side : RuleMatch) : side.questions.map Prod.fst = side.references := by
  simp only [questions, references, List.map_append, map_fst_pairs]

theorem Rule.mem_references_iff {rule : Rule} {id : StampId} :
    id ∈ rule.references ↔ id ∈ rule.questions.map Prod.fst := by
  simp only [questions, references, List.map_append, RuleMatch.map_fst_questions, List.mem_append, or_comm]

theorem AttachedRule.mem_references_iff {rule : AttachedRule} {id : StampId} :
    id ∈ rule.references ↔ id ∈ rule.questions.map Prod.fst := by
  cases rule with
  | inline rule => exact Rule.mem_references_iff
  | list target => exact Iff.rfl

theorem AttachedRule.map_fst_questions_iff {rules : List AttachedRule} {id : StampId} :
    id ∈ rules.flatMap references ↔ id ∈ (rules.flatMap questions).map Prod.fst := by
  simp only [List.map_flatMap, List.mem_flatMap, mem_references_iff]

/-- The stamps that a stamp has a use for are those that it refers to. -/
theorem Stamp.mem_references_iff {stamp : Stamp} {id : StampId} :
    id ∈ stamp.references ↔ id ∈ stamp.uses.map Prod.fst := by
  cases stamp with
  | pool pool => simp [references, uses, Pool.references, Member.references, eq_comm]
  | ruleList list =>
    simp only [references, uses, RuleList.references, List.map_flatMap, List.mem_flatMap,
      Rule.mem_references_iff]
  | node s | virtualServer s | selfIp s | routeDomain s | firewall s =>
    simp only [references, uses, Node.references, VirtualServer.references, SelfIp.references,
      RouteDomain.references, Firewall.references, List.map_append, List.map_cons, List.mem_append,
      List.mem_cons, map_fst_pairs, AttachedRule.map_fst_questions_iff]
  | _ => exact Iff.rfl

/-- The texts of a stamp that have to be addresses. -/
def Stamp.addresses : Stamp → List String
  | .node s => [s.address]
  | .virtualServer s => [s.address]
  | _ => []

/-- The kinds whose keys stamps ask for. -/
def Kind.isAsked : Dialect → Kind → Bool
  | .modern, kind => [.node, .pool, .vlan, .addressList, .portList, .ruleList].contains kind
  | .legacy, kind => kind == .pool || kind == .vlan

/-- Whether stamps of a kind have a key, for the kinds whose keys are asked for. -/
def Kind.isKeyed (context : Context) : Dialect → Kind → Bool
  | _, .node | _, .pool => context.version.product == .bigip
  | _, .vlan => true
  | .modern, .addressList | .modern, .portList | .modern, .ruleList => context.atLeast .bigip 11 3 0
  | _, _ => false

/-- Why the recipe of a stamp may fail: a stamp that it refers to is missing, hooked onto no folder or of another kind, or its own address or that of a node that it refers to is none. -/
inductive Scope.Fault (scope : Scope) (stamp : Stamp) : CompileError → Prop
  | missing {id : StampId} {kind : Kind} (huse : (id, kind) ∈ stamp.uses)
      (h : scope.stamp? id = none) : Fault scope stamp (.unknownStamp id)
  | unhooked {id : StampId} {kind : Kind} {target : Stamp} (huse : (id, kind) ∈ stamp.uses)
      (htarget : scope.stamp? id = some target) (h : scope.hookPath? id = none) :
      Fault scope stamp (.missingContext target.kind)
  | mistyped {id : StampId} {kind : Kind} {target : Stamp} (huse : (id, kind) ∈ stamp.uses)
      (htarget : scope.stamp? id = some target) (h : target.kind ≠ kind) :
      Fault scope stamp (.unexpectedKind kind target.kind)
  | address {text : String} (htext : text ∈ stamp.addresses) (h : Address.parse? text = none) :
      Fault scope stamp (.invalidAddress text)
  | nodeAddress {id : StampId} {node : Node} (huse : (id, .node) ∈ stamp.uses)
      (hnode : scope.stamp? id = some (.node node)) (h : Address.parse? node.address = none) :
      Fault scope stamp (.invalidAddress node.address)

/-! ### Computations that fail for known reasons only -/

/-- A computation fails in one of some ways, or ends with a result that has a property. -/
def Settles {α : Type} (fails : CompileError → Prop) (post : α → Prop) :
    Except CompileError α → Prop
  | .ok a => post a
  | .error e => fails e

section Settles

variable {α β : Type} {fails : CompileError → Prop} {mid : α → Prop} {post : β → Prop}

namespace Settles

theorem referredBy {x : Except CompileError α} (h : Settles fails mid x) {kind : Kind}
    (hfails : ∀ e, fails e → fails (.reference kind e)) :
    Settles fails mid (x.mapError (.reference kind)) := by
  cases x with
  | error e => exact hfails e h
  | ok a => exact h

theorem bind {x : Except CompileError α} (h : Settles fails mid x) {f : α → Except CompileError β}
    (hnext : ∀ a, mid a → Settles fails post (f a)) : Settles fails post (x >>= f) := by
  cases x with
  | error e => exact h
  | ok a => exact hnext a h

theorem bind_ok {x : Except CompileError α} {a : α} (h : x = .ok a) {f : α → Except CompileError β}
    (hnext : Settles fails post (f a)) : Settles fails post (x >>= f) := by
  rw [h]
  exact hnext

theorem of_eq_ok {x : Except CompileError α} {a : α} (h : x = .ok a) (ha : mid a) :
    Settles fails mid x := by
  rw [h]
  exact ha

theorem skipIf {skip : Bool} {output : α} {x : Except CompileError α}
    (hskip : skip = true → mid output) (h : skip = false → Settles fails mid x) :
    Settles fails mid (if skip then pure output else x) := by
  cases skip
  · exact h rfl
  · exact hskip rfl

theorem mapM {f : α → Except CompileError β} {items : List α}
    (h : ∀ a ∈ items, Settles fails (fun _ => True) (f a)) :
    Settles fails (fun _ => True) (items.mapM f) := by
  induction items with
  | nil => exact True.intro
  | cons a items ih =>
    rw [List.mapM_cons]
    obtain ⟨ha, hitems⟩ := List.forall_mem_cons.mp h
    exact ha.bind fun b _ => (ih hitems).bind fun _ _ => True.intro

end Settles

namespace Recipe

variable {rank : Nat} {asks : StampId → Kind → Prop}

/-- The recipe asks for some keys only, and whatever keys it is given it fails in one of some ways or ends with a result that has a property. -/
def Settles (fails : CompileError → Prop) (asks : StampId → Kind → Prop) (post : α → Prop) :
    Recipe rank α → Prop
  | .done result => post result
  | .fail e => fails e
  | .refer id kind _ next => asks id kind ∧ ∀ key, (next key).Settles fails asks post

namespace Settles

theorem done {a : α} (h : mid a) : (.done a : Recipe rank α).Settles fails asks mid := h

theorem bind {x : Recipe rank α} (h : x.Settles fails asks mid) {f : α → Recipe rank β}
    (hnext : ∀ a, mid a → (f a).Settles fails asks post) : (x >>= f).Settles fails asks post := by
  change (x.andThen f).Settles fails asks post
  induction x with
  | done result => exact hnext result h
  | fail e => exact h
  | refer id kind lower next ih => exact ⟨h.1, fun key => ih key (h.2 key)⟩

theorem lift {x : Except CompileError α} (h : ApplianceConfig.Settles fails mid x) :
    (liftM x : Recipe rank α).Settles fails asks mid := by
  cases x with
  | error e => exact h
  | ok a => exact h

theorem ofExcept {x : Except CompileError α} (h : ApplianceConfig.Settles fails mid x) :
    (.ofExcept x : Recipe rank α).Settles fails asks mid := lift h

theorem bind_ok {x : Except CompileError α} {a : α} (h : x = .ok a) {f : α → Recipe rank β}
    (hnext : (f a).Settles fails asks post) :
    ((liftM x : Recipe rank α) >>= f).Settles fails asks post := by
  rw [h]
  exact hnext

theorem key {id : StampId} {kind : Kind} (lower : kind.rank < rank) (h : asks id kind) :
    (Recipe.key id kind lower).Settles fails asks fun _ => True := ⟨h, fun _ => True.intro⟩

theorem skipIf {skip : Bool} {output : α} {x : Recipe rank α} (hskip : skip = true → mid output)
    (h : skip = false → x.Settles fails asks mid) :
    (if skip then pure output else x).Settles fails asks mid := by
  cases skip
  · exact h rfl
  · exact hskip rfl

theorem mapM {f : α → Recipe rank β} {items : List α}
    (h : ∀ a ∈ items, (f a).Settles fails asks fun _ => True) :
    (items.mapM f).Settles fails asks fun _ => True := by
  have hloop : ∀ done : List β, (List.mapM.loop f items done).Settles fails asks fun _ => True := by
    induction items with
    | nil => exact fun _ => True.intro
    | cons a items ih =>
      intro done
      refine (h a List.mem_cons_self).bind fun b _ => ?_
      exact ih (fun other hother => h other (List.mem_cons_of_mem a hother)) (b :: done)
  exact hloop []

/-- A run fails as its recipe does or as the answers to its questions do. -/
theorem run {recipe : Recipe rank α} (h : recipe.Settles fails asks mid)
    {failing : CompileError → Prop} (hfails : ∀ e, fails e → failing e)
    {answer : (id : StampId) → (kind : Kind) → kind.rank < rank → Except CompileError String}
    (hanswer : ∀ id kind lower, asks id kind →
      ApplianceConfig.Settles failing (fun _ => True) (answer id kind lower)) :
    ApplianceConfig.Settles failing mid (recipe.run .error answer) := by
  induction recipe with
  | done result => exact h
  | fail e => exact hfails e h
  | refer id kind lower next ih => exact (hanswer id kind lower h.1).bind fun key _ => ih key (h.2 key)

end Settles

end Recipe

end Settles

/-! ### Parts of recipes -/

namespace Scope

variable {scope : Scope} {stamp : Stamp}

theorem stamp_settles {id : StampId} {kind : Kind} (huse : (id, kind) ∈ stamp.uses) :
    Settles (scope.Fault stamp) (fun target => scope.stamp? id = some target) (scope.stamp id) := by
  unfold Scope.stamp
  cases htarget : scope.stamp? id with
  | none => exact .missing huse htarget
  | some target => exact rfl

theorem stampPath_settles {id : StampId} {kind : Kind} (huse : (id, kind) ∈ stamp.uses)
    (name : String) : Settles (scope.Fault stamp) (fun _ => True) (scope.stampPath id name) := by
  unfold Scope.stampPath
  cases hpath : scope.hookPath? id with
  | none => exact (stamp_settles huse).bind fun target htarget => .unhooked huse htarget hpath
  | some path => exact True.intro

theorem routeDomainSuffix_settles {routeDomain : Option StampId}
    (huse : ∀ id ∈ routeDomain.toList, (id, .routeDomain) ∈ stamp.uses) :
    Settles (scope.Fault stamp) (fun _ => True) (scope.routeDomainSuffix routeDomain) := by
  cases routeDomain with
  | none => exact True.intro
  | some id =>
    have huse := huse id (List.mem_singleton_self id)
    refine (stamp_settles huse).bind fun target htarget => ?_
    cases target with
    | routeDomain domain => exact True.intro
    | _ =>
      refine .mistyped huse htarget fun hkind => ?_
      cases hkind

theorem portSeparator_settles {text : String}
    (h : Address.parse? text = none → scope.Fault stamp (.invalidAddress text)) :
    Settles (scope.Fault stamp) (fun _ => True) (portSeparator text) := by
  unfold portSeparator
  cases hparse : Address.parse? text with
  | none => exact h hparse
  | some ip => exact True.intro

end Scope

section Rules

variable {rank : Nat} {fails : CompileError → Prop} {asks : StampId → Kind → Prop}

theorem keySet_settles {ids : List StampId} {kind : Kind} (lower : kind.rank < rank)
    (h : ∀ id ∈ ids, asks id kind) : (keySet ids kind lower).Settles fails asks fun _ => True :=
  (Recipe.Settles.mapM fun id hid => .key lower (h id hid)).bind fun _ _ => True.intro

theorem RuleMatch.part_settles {α : Type} (name : String) (items : List α) {value : Recipe rank Value}
    (h : value.Settles fails asks fun _ => True) :
    (part name items value).Settles fails asks fun _ => True :=
  .skipIf (fun _ => True.intro) fun _ => h.bind fun _ _ => True.intro

theorem RuleMatch.entries_settles {side : RuleMatch} (low : 0 < rank)
    (h : ∀ question ∈ side.questions, asks question.1 question.2) :
    (side.entries low).Settles fails asks fun _ => True := by
  have hmem {ids : List StampId} {kind : Kind} {id : StampId} (hid : id ∈ ids) :
      (id, kind) ∈ ids.map (·, kind) := List.mem_map.mpr ⟨id, hid, rfl⟩
  simp only [questions, List.forall_mem_append] at h
  obtain ⟨⟨haddress, hport⟩, hvlan⟩ := h
  refine (part_settles _ _ (keySet_settles _ fun id hid => haddress (id, _) (hmem hid))).bind fun _ _ => ?_
  refine (part_settles _ _ (.done True.intro)).bind fun _ _ => ?_
  refine (part_settles _ _ (keySet_settles _ fun id hid => hport (id, _) (hmem hid))).bind fun _ _ => ?_
  refine (part_settles _ _ (.done True.intro)).bind fun _ _ => ?_
  exact (part_settles _ _ (keySet_settles _ fun id hid => hvlan (id, _) (hmem hid))).bind fun _ _ => True.intro

theorem Rule.side_settles (name : String) {side : RuleMatch} (low : 0 < rank)
    (h : ∀ question ∈ side.questions, asks question.1 question.2) :
    (Rule.side name side low).Settles fails asks fun _ => True :=
  .skipIf (fun _ => True.intro) fun _ => (side.entries_settles low h).bind fun _ _ => True.intro

theorem Rule.body_settles {rule : Rule} (low : 0 < rank)
    (h : ∀ question ∈ rule.questions, asks question.1 question.2) :
    (rule.body low).Settles fails asks fun _ => True := by
  obtain ⟨hdestination, hsource⟩ := List.forall_mem_append.mp h
  refine (side_settles _ low hdestination).bind fun _ _ => ?_
  exact (side_settles _ low hsource).bind fun _ _ => True.intro

/-- All that attached rules ask for are keys of kinds that modern stamps ask for. -/
theorem Rule.isAsked_of_question {rule : Rule} {question : StampId × Kind}
    (h : question ∈ rule.questions) : question.2.isAsked .modern = true := by
  simp only [questions, RuleMatch.questions, List.mem_append, List.mem_map] at h
  rcases h with ((⟨_, _, rfl⟩ | ⟨_, _, rfl⟩) | ⟨_, _, rfl⟩) | (⟨_, _, rfl⟩ | ⟨_, _, rfl⟩) | ⟨_, _, rfl⟩ <;> rfl

theorem AttachedRule.isAsked_of_question {rule : AttachedRule} {question : StampId × Kind}
    (h : question ∈ rule.questions) : question.2.isAsked .modern = true := by
  cases rule with
  | inline rule => exact Rule.isAsked_of_question h
  | list id =>
    rw [List.mem_singleton.mp h]
    rfl

/-- The keys that a stamp may ask for in a dialect. -/
def Stamp.Asks (stamp : Stamp) (dialect : Dialect) (id : StampId) (kind : Kind) : Prop :=
  (id, kind) ∈ stamp.uses ∧ kind.isAsked dialect = true

variable {scope : Scope} {stamp : Stamp}

theorem AttachedRule.entry_settles {rule : AttachedRule} (low : 1 < rank)
    (huses : rule.questions ⊆ stamp.uses) :
    (rule.entry scope low).Settles (scope.Fault stamp) (stamp.Asks .modern) fun _ => True := by
  have hasks : ∀ question ∈ rule.questions, stamp.Asks .modern question.1 question.2 :=
    fun question hquestion => ⟨huses hquestion, isAsked_of_question hquestion⟩
  cases rule with
  | inline rule => exact (rule.body_settles _ hasks).bind fun _ _ => True.intro
  | list id =>
    have huse : (id, .ruleList) ∈ stamp.uses := huses (List.mem_singleton_self _)
    refine (Recipe.Settles.lift (Scope.stamp_settles huse)).bind fun target htarget => ?_
    cases target with
    | ruleList rules => exact (Recipe.Settles.key low ⟨huse, rfl⟩).bind fun _ _ => True.intro
    | _ =>
      refine Scope.Fault.mistyped huse htarget fun hkind => ?_
      cases hkind

theorem AttachedRule.block_settles {rules : List AttachedRule} (low : 1 < rank)
    (huses : rules.flatMap questions ⊆ stamp.uses) :
    (AttachedRule.block rules scope low).Settles (scope.Fault stamp) (stamp.Asks .modern) fun _ => True := by
  refine (Recipe.Settles.mapM fun rule hrule => ?_).bind fun _ _ => True.intro
  exact rule.entry_settles low fun _ h => huses (List.mem_flatMap.mpr ⟨rule, hrule, h⟩)

theorem attachedRules_settles (attach : Bool) {rules : List AttachedRule} (low : 1 < rank)
    (huses : rules.flatMap AttachedRule.questions ⊆ stamp.uses) :
    (attachedRules attach rules scope low).Settles (scope.Fault stamp) (stamp.Asks .modern)
      fun _ => True := by
  unfold attachedRules
  split
  · exact (AttachedRule.block_settles low huses).bind fun _ _ => True.intro
  · exact True.intro

end Rules

section Traffic

variable {scope : Scope} {stamp : Stamp}

theorem Member.target_settles {member : Member} (huse : (member.node, .node) ∈ stamp.uses) :
    Settles (scope.Fault stamp) (fun node => scope.stamp? member.node = some (.node node))
      (member.target scope) := by
  refine (Scope.stamp_settles huse).bind fun target htarget => ?_
  cases target with
  | node node => exact htarget
  | _ =>
    refine .mistyped huse htarget fun hkind => ?_
    cases hkind

theorem Member.modernEntry_settles {member : Member} (huse : (member.node, .node) ∈ stamp.uses) :
    (member.modernEntry scope).Settles (scope.Fault stamp) (stamp.Asks .modern) fun _ => True := by
  refine (Recipe.Settles.lift (target_settles huse)).bind fun node hnode => ?_
  refine (Recipe.Settles.key Nat.one_pos ⟨huse, rfl⟩).bind fun key _ => ?_
  have hseparator : Settles (scope.Fault stamp) (fun _ => True) (separator node key) := by
    unfold separator
    split
    · rename_i hkey
      exact Scope.portSeparator_settles fun hparse => hkey ▸ .nodeAddress huse hnode (hkey ▸ hparse)
    · exact True.intro
  exact (Recipe.Settles.lift hseparator).bind fun _ _ => True.intro

theorem Member.legacyEntries_settles {member : Member} (huse : (member.node, .node) ∈ stamp.uses) :
    Settles (scope.Fault stamp) (fun _ => True) (member.legacyEntries scope) := by
  refine (target_settles huse).bind fun node hnode => ?_
  exact (Scope.portSeparator_settles (.nodeAddress huse hnode)).bind fun _ _ => True.intro

namespace VirtualServer

variable {server : VirtualServer}

theorem profile_mem_uses {id : StampId} (hid : id ∈ server.profiles) :
    (id, .profile) ∈ (Stamp.virtualServer server).uses := by
  simp [Stamp.uses, hid]

theorem profile_settles {id : StampId} (huse : (id, .profile) ∈ stamp.uses) :
    Settles (scope.Fault stamp) (fun _ => True) (profile scope id) := by
  refine (Scope.stamp_settles huse).bind fun target htarget => ?_
  cases target with
  | profile profile => exact True.intro
  | _ =>
    refine .mistyped huse htarget fun hkind => ?_
    cases hkind

theorem destination_settles :
    Settles (scope.Fault (.virtualServer server)) (fun _ => True) (server.destination scope) := by
  have haddress : Address.parse? server.address = none →
      scope.Fault (.virtualServer server) (.invalidAddress server.address) :=
    .address (List.mem_singleton_self server.address)
  refine (Scope.portSeparator_settles haddress).bind fun _ _ => ?_
  refine (Scope.routeDomainSuffix_settles fun id hid => ?_).bind fun _ _ => True.intro
  simp_all [Stamp.uses]

theorem poolKey_settles {dialect : Dialect} (hasked : Kind.isAsked dialect .pool = true) :
    server.poolKey.Settles (scope.Fault (.virtualServer server))
      ((Stamp.virtualServer server).Asks dialect) fun _ => True := by
  unfold poolKey
  cases hpool : server.pool with
  | none => exact True.intro
  | some id =>
    have huse : (id, .pool) ∈ (Stamp.virtualServer server).uses := by simp [Stamp.uses, hpool]
    exact (Recipe.Settles.key Nat.one_lt_two ⟨huse, hasked⟩).bind fun _ _ => True.intro

end VirtualServer

end Traffic

/-! ### Recipes of each kind -/

namespace Stamp

open Template Scope

/-- A stamp that is keyed in a dialect and a context ends with a key. -/
def Keyed (stamp : Stamp) (context : Context) (dialect : Dialect) (output : Output) : Prop :=
  stamp.kind.isKeyed context dialect = true → output.key.isSome = true

theorem Keyed.of_unkeyed {stamp : Stamp} {context : Context} {dialect : Dialect} {output : Output}
    (h : stamp.kind.isKeyed context dialect = false) : stamp.Keyed context dialect output :=
  fun hkeyed => absurd (h.symm.trans hkeyed) Bool.false_ne_true

theorem modernRecipe_settles (stamp : Stamp) (scope : Scope) :
    (stamp.modernRecipe scope (document stamp.kind .modern)).Settles (scope.Fault stamp)
      (stamp.Asks .modern) (stamp.Keyed scope.context .modern) := by
  cases stamp with
  | partition settings =>
    obtain ⟨output, hok⟩ := settings.modern_eq_ok scope
    exact .ofExcept (.of_eq_ok hok (.of_unkeyed rfl))
  | folder => exact .ofExcept (.bind_ok (fillAs_object scope ["sys", "folder"] "$key" _ _ _) (.of_unkeyed rfl))
  | raw object => exact Keyed.of_unkeyed rfl
  | node node =>
    refine .ofExcept (.skipIf (fun hskip hkeyed => ?_) fun _ => ?_)
    · simp_all [isBigip, Kind.isKeyed, kind]
    · refine (routeDomainSuffix_settles fun id hid => ?_).bind fun suffix _ => ?_
      · exact List.mem_map.mpr ⟨id, hid, rfl⟩
      · exact .bind_ok (fillAs_object scope ["ltm", "node"] "$key" _ _ _) fun _ => rfl
  | pool pool =>
    refine .skipIf (fun hskip hkeyed => ?_) fun _ => ?_
    · simp_all [isBigip, Kind.isKeyed, kind]
    · refine (Recipe.Settles.mapM fun member hmember => ?_).bind fun members _ => ?_
      · exact member.modernEntry_settles (List.mem_map.mpr ⟨member, hmember, rfl⟩)
      · exact .bind_ok (fillAs_object scope ["ltm", "pool"] "$key" _ _ _) fun _ => rfl
  | virtualServer server =>
    have hprofiles : Settles (scope.Fault (.virtualServer server)) (fun _ => True)
        (server.profileEntries scope) := by
      refine .mapM fun id hid => ?_
      have huse := VirtualServer.profile_mem_uses hid
      refine (VirtualServer.profile_settles huse).bind fun profile _ => ?_
      exact (stampPath_settles huse profile.name).bind fun path _ => True.intro
    refine .skipIf (fun _ => .of_unkeyed rfl) fun _ => ?_
    refine (Recipe.Settles.lift (routeDomainSuffix_settles fun id hid => ?_)).bind fun suffix _ => ?_
    · simp_all [uses]
    refine (Recipe.Settles.lift hprofiles).bind fun profiles _ => ?_
    refine (attachedRules_settles _ Nat.one_lt_two fun _ h => ?_).bind fun rules _ => ?_
    · simp only [uses, List.mem_append, h, true_or, or_true]
    refine (VirtualServer.poolKey_settles rfl).bind fun pool _ => ?_
    refine (Recipe.Settles.lift VirtualServer.destination_settles).bind fun destination _ => ?_
    obtain ⟨first, second, hfirst, hsecond⟩ := VirtualServer.fillAs_eq_ok scope (scope.path server.name)
      (scope.path server.address)
      (fun entries => VirtualServer.putPool pool (putRules rules (Assoc.put (Assoc.put entries
        "destination" (.text destination)) "profiles" (.block (Assoc.putAll [] profiles)))))
      (Assoc.put · "address" (.text (server.address ++ suffix)))
    exact .bind_ok hfirst (.bind_ok hsecond (.done (.of_unkeyed rfl)))
  | profile profile => exact .done (.of_unkeyed rfl)
  | selfIp selfIp =>
    refine .skipIf (fun _ => .of_unkeyed rfl) fun _ => ?_
    refine (Recipe.Settles.lift (routeDomainSuffix_settles fun id hid => ?_)).bind fun suffix _ => ?_
    · simp_all [uses]
    refine (Recipe.Settles.key Nat.two_pos ⟨List.mem_cons_self, rfl⟩).bind fun vlan _ => ?_
    refine (attachedRules_settles true Nat.one_lt_two fun _ h => ?_).bind fun rules _ => ?_
    · exact List.mem_append_left _ (List.mem_cons_of_mem _ h)
    exact .bind_ok (fillAs_object scope ["net", "self"] "$key" _ _ _) (.done (.of_unkeyed rfl))
  | trunk trunk => exact .ofExcept (.bind_ok (fillAs_object scope ["net", "trunk"] "$name" _ _ _) (.of_unkeyed rfl))
  | vlan vlan => exact .ofExcept (.bind_ok (fillAs_object scope ["net", "vlan"] "$name" _ _ _) fun _ => rfl)
  | routeDomain domain =>
    have hvlan {id : StampId} (hid : id ∈ domain.vlans) : (id, .vlan) ∈ (Stamp.routeDomain domain).uses :=
      List.mem_append_left _ (List.mem_map.mpr ⟨id, hid, rfl⟩)
    refine (Recipe.Settles.mapM fun id hid => .key Nat.two_pos ⟨hvlan hid, rfl⟩).bind fun vlans _ => ?_
    refine (attachedRules_settles _ Nat.one_lt_two fun _ h => ?_).bind fun rules _ => ?_
    · exact List.mem_append_right _ h
    exact .bind_ok (fillAs_object scope ["net", "route-domain"] "$name" _ _ _) (.done (.of_unkeyed rfl))
  | provision provision =>
    exact .ofExcept (.bind_ok (fillAs_object scope ["sys", "provision"] "$name" _ _ _) (.of_unkeyed rfl))
  | defaults => exact .done (.of_unkeyed rfl)
  | platform platform =>
    obtain ⟨output, hok⟩ := platform.modern_eq_ok scope
    exact .ofExcept (.of_eq_ok hok (.of_unkeyed rfl))
  | dns dns => exact .done (.of_unkeyed rfl)
  | ntp ntp => exact .done (.of_unkeyed rfl)
  | mail mail =>
    refine .ofExcept (.skipIf (fun _ => .of_unkeyed rfl) fun _ => ?_)
    exact .bind_ok (fillAs_object scope ["sys", "smtp-server"] "$key" _ _ _) (.of_unkeyed rfl)
  | user user => exact .ofExcept (.bind_ok (fillAs_object scope ["auth", "user"] "$name" _ _ _) (.of_unkeyed rfl))
  | addressList list =>
    refine .ofExcept (.skipIf (fun hskip hkeyed => ?_) fun _ => ?_)
    · simp_all [hasFirewall, Kind.isKeyed, kind]
    · exact .bind_ok (fillAs_object scope ["security", "firewall", "address-list"] "$key" _ _ _) fun _ => rfl
  | portList list =>
    refine .ofExcept (.skipIf (fun hskip hkeyed => ?_) fun _ => ?_)
    · simp_all [hasFirewall, Kind.isKeyed, kind]
    · exact .bind_ok (fillAs_object scope ["security", "firewall", "port-list"] "$key" _ _ _) fun _ => rfl
  | ruleList list =>
    refine .skipIf (fun hskip hkeyed => ?_) fun _ => ?_
    · simp_all [hasFirewall, Kind.isKeyed, kind]
    · refine (Recipe.Settles.mapM fun rule hrule => ?_).bind fun rules _ => ?_
      · refine (rule.body_settles Nat.one_pos fun question h => ?_).bind fun body _ => .done True.intro
        exact ⟨List.mem_flatMap.mpr ⟨rule, hrule, h⟩, Rule.isAsked_of_question h⟩
      · exact .bind_ok (fillAs_object scope ["security", "firewall", "rule-list"] "$key" _ _ _)
          (.done fun _ => rfl)
  | firewall firewall =>
    refine .skipIf (fun _ => .of_unkeyed rfl) fun _ => ?_
    refine (AttachedRule.block_settles Nat.one_lt_two fun _ h => ?_).bind fun rules _ => ?_
    · exact h
    exact .bind_ok (fillAs_object scope ["security", "firewall"] "$context" _ _ _) (.done (.of_unkeyed rfl))

theorem legacyRecipe_settles (stamp : Stamp) (scope : Scope) :
    (stamp.legacyRecipe scope (document stamp.kind .legacy)).Settles (scope.Fault stamp)
      (stamp.Asks .legacy) (stamp.Keyed scope.context .legacy) := by
  cases stamp with
  | partition settings =>
    obtain ⟨output, hok⟩ := settings.legacy_eq_ok scope
    exact .ofExcept (.of_eq_ok hok (.of_unkeyed rfl))
  | raw object => exact .done (.of_unkeyed rfl)
  | node node =>
    refine .ofExcept (.skipIf (fun hskip hkeyed => ?_) fun _ => ?_)
    · simp_all [isBigip, Kind.isKeyed, kind]
    · exact .bind_ok (fillAs_object scope ["node"] "$address" _ _ _) fun _ => rfl
  | pool pool =>
    refine .ofExcept (.skipIf (fun hskip hkeyed => ?_) fun _ => ?_)
    · simp_all [isBigip, Kind.isKeyed, kind]
    · refine (Settles.mapM fun member hmember => ?_).bind fun members _ => ?_
      · exact member.legacyEntries_settles (List.mem_map.mpr ⟨member, hmember, rfl⟩)
      · exact .bind_ok (fillAs_object scope ["pool"] "$name" _ _ _) fun _ => rfl
  | virtualServer server =>
    have hnames : Settles (scope.Fault (.virtualServer server)) (fun _ => True)
        (server.profileNames scope) := by
      refine (Settles.mapM fun id hid => ?_).bind fun _ _ => True.intro
      exact VirtualServer.profile_settles (VirtualServer.profile_mem_uses hid)
    refine .skipIf (fun _ => .of_unkeyed rfl) fun _ => ?_
    refine (Recipe.Settles.lift hnames).bind fun names _ => ?_
    refine (VirtualServer.poolKey_settles rfl).bind fun pool _ => ?_
    refine (Recipe.Settles.lift VirtualServer.destination_settles).bind fun destination _ => ?_
    exact .bind_ok (fillAs_object scope ["virtual"] "$name" _ _ _) (.done (.of_unkeyed rfl))
  | selfIp selfIp =>
    refine (Recipe.Settles.key Nat.two_pos ⟨List.mem_cons_self, rfl⟩).bind fun vlan _ => ?_
    exact .bind_ok (fillAs_object scope ["self"] "$address" _ _ _) (.done (.of_unkeyed rfl))
  | vlan vlan => exact .ofExcept (.bind_ok (fillAs_object scope ["vlan"] "$name" _ _ _) fun _ => rfl)
  | provision provision =>
    refine .ofExcept (.skipIf (fun _ => .of_unkeyed rfl) fun _ => ?_)
    exact .bind_ok (fillAs_object scope ["provision"] "$name" _ _ _) (.of_unkeyed rfl)
  | defaults => exact .done (.of_unkeyed rfl)
  | platform platform =>
    obtain ⟨output, hok⟩ := platform.legacy_eq_ok scope
    exact .ofExcept (.of_eq_ok hok (.of_unkeyed rfl))
  | dns dns => exact .done (.of_unkeyed rfl)
  | ntp ntp => exact .done (.of_unkeyed rfl)
  | user user => exact .ofExcept (.bind_ok (fillAs_object scope ["user"] "$name" _ _ _) (.of_unkeyed rfl))
  | folder | profile _ | trunk _ | routeDomain _ | mail _ | addressList _ | portList _ | ruleList _
  | firewall _ => exact .done (.of_unkeyed rfl)

/-- A recipe on its template fails for what is wrong with its stamp only, asks only for keys that the stamp has a use for, and ends with a key where the stamp is keyed. -/
theorem recipe_settles (stamp : Stamp) (dialect : Dialect) (scope : Scope) :
    (stamp.recipe dialect scope (document stamp.kind dialect)).Settles (scope.Fault stamp)
      (stamp.Asks dialect) (stamp.Keyed scope.context dialect) := by
  cases dialect with
  | modern => exact stamp.modernRecipe_settles scope
  | legacy => exact stamp.legacyRecipe_settles scope

end Stamp

/-! ### Stamps of a tree -/

namespace Tree

variable {tree : Tree} {fails : CompileError → Prop}

/-- The failures in question include all that can be wrong with the stamps of a tree, keys that a release does not have, and references to what fails in such a way. -/
structure Covered (tree : Tree) (fails : CompileError → Prop) : Prop where
  fault : ∀ slot ∈ tree.slots, ∀ folder e,
    (tree.scope folder slot.stamp.kind).Fault slot.stamp e → fails e
  unkeyed : ∀ asker target : Stamp, target.kind.isAsked (asker.dialect tree.context.version) = true →
    target.kind.isKeyed tree.context (target.dialect tree.context.version) = false →
    fails (.noReferenceKey target.kind)
  referred : ∀ kind e, fails e → fails (.reference kind e)

/-- The compiled stamp has a key where its kind has one. -/
def HasKey (tree : Tree) (stamp : Stamp) (compiled : Compiled) : Prop :=
  stamp.kind.isKeyed tree.context (stamp.dialect tree.context.version) = true →
    compiled.key.isSome = true

theorem Covered.answer (h : tree.Covered fails) {slot : Slot} (hslot : slot ∈ tree.slots)
    {id : StampId} {kind : Kind} (hasks : slot.stamp.Asks (slot.stamp.dialect tree.context.version) id kind)
    (hresult : ∀ other folder, tree.slot? id = some other → other.stamp.kind = kind →
      other.folder = some folder → Settles fails (tree.HasKey other.stamp) (tree.result other)) :
    Settles fails (fun _ => True) (tree.answer slot.stamp.kind id kind) := by
  obtain ⟨huse, hasked⟩ := hasks
  have hfault {e : CompileError} := h.fault slot hslot root e
  unfold Tree.answer
  cases hother : tree.slot? id with
  | none => exact hfault (.missing huse (Option.map_eq_none_iff.mpr hother))
  | some other =>
    have hstamp := stamp?_of_slot hother
    by_cases hkind : other.stamp.kind = kind
    · simp only [if_pos hkind]
      have hsettles : Settles fails (tree.HasKey other.stamp) (tree.result other) := by
        cases hfolder : other.folder with
        | none =>
          have hpath : (tree.stampFolder? id).map tree.path = none := by
            rw [stampFolder?_of_slot hother, hfolder, Option.map_none]
          rw [tree.result_eq, hfolder]
          exact hfault (.unhooked huse hstamp hpath)
        | some folder => exact hresult other folder hother hkind hfolder
      refine (hsettles.referredBy (h.referred _)).bind fun compiled hkeyed => ?_
      cases hkey : compiled.key with
      | some key => exact True.intro
      | none =>
        have hunkeyed : other.stamp.kind.isKeyed tree.context
            (other.stamp.dialect tree.context.version) = false := by
          rw [← Bool.not_eq_true]
          intro htrue
          have := hkeyed htrue
          rw [hkey] at this
          cases this
        rw [← hkind] at hasked ⊢
        exact h.unkeyed slot.stamp other.stamp hasked hunkeyed
    · simp only [if_neg hkind]
      exact hfault (.mistyped huse hstamp hkind)

/-- A hooked stamp fails for what is wrong with it or with the stamps that it takes keys from. -/
theorem Covered.result (h : tree.Covered fails) {slot : Slot} (hslot : slot ∈ tree.slots)
    {folder : FolderId} (hfolder : slot.folder = some folder) :
    Settles fails (tree.HasKey slot.stamp) (tree.result slot) := by
  rw [tree.result_eq, hfolder]
  simp only [Template.parse_eq]
  refine .bind_ok rfl ?_
  have hrecipe := slot.stamp.recipe_settles (slot.stamp.dialect tree.context.version)
    (tree.scope folder slot.stamp.kind)
  refine (hrecipe.run (h.fault slot hslot folder) fun id kind lower hasks => ?_).bind
    fun output hkeyed => hkeyed
  exact h.answer hslot hasks fun other _ hother hkind hhooked =>
    h.result (List.mem_of_getElem? hother) hhooked
  termination_by slot.stamp.kind.rank
  decreasing_by
    rw [hkind]
    exact lower

theorem Covered.rendering (h : tree.Covered fails) (hfiled : tree.Filed) (start : FolderId)
    (options : RenderOptions) (wanted : Stamp → Bool) :
    Settles fails (fun _ => True) (tree.rendering start options wanted) := by
  refine (Settles.mapM fun id hid => ?_).bind fun _ _ => True.intro
  obtain ⟨folder, -, hwanted⟩ := List.mem_flatMap.mp hid
  have hhooked := (hfiled.mem_content_iff folder id).mp (List.mem_filter.mp hwanted).1
  obtain ⟨slot, hslot, hfolder⟩ := Option.bind_eq_some_iff.mp hhooked
  have houtcome : tree.outcome id = tree.result slot := by rw [outcome, hslot]
  rw [stampText, houtcome]
  refine (h.result (List.mem_of_getElem? hslot) hfolder).bind fun compiled _ => ?_
  cases compiled.value with
  | some doc => exact True.intro
  | none => exact True.intro

end Tree

end ApplianceConfig
