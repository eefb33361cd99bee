import ApplianceConfig.Proofs.Compile.Faults
import ApplianceConfig.Proofs.Stamp.Renumbering
import ApplianceConfig.Proofs.Tree.Shape

/-!
# Compiling under other numbers

The numbers of stamps serve to find stamps and are never written. If the stamps of a tree have other numbers, and refer to each other by these, then every stamp compiles to what it compiled to, and the tree renders to the same text. A failure stays the same too, unless it names a number that no stamp has.
-/

namespace ApplianceConfig

theorem Stamp.dialect_renumber (f : StampId → StampId) (stamp : Stamp) (version : Version) :
    (stamp.renumber f).dialect version = stamp.dialect version := by
  cases stamp <;> rfl

/-- The failure under other numbers. -/
def CompileError.renumber (f : StampId → StampId) : CompileError → CompileError
  | .unknownStamp id => .unknownStamp (f id)
  | .reference kind source => .reference kind (source.renumber f)
  | e => e

/-! ### Computations under other numbers -/

section Follows

variable {α β γ δ : Type} {f : StampId → StampId} {g : α → β} {k : γ → δ}

/-- The second computation ends as the first does under other numbers, with what a function makes of its result. -/
def Follows (f : StampId → StampId) (g : α → β) (x : Except CompileError α) (y : Except CompileError β) : Prop :=
  match x with
  | .ok a => y = .ok (g a)
  | .error e => y = .error (e.renumber f)

namespace Follows

theorem bind {x : Except CompileError α} {y : Except CompileError β} (h : Follows f g x y)
    {next : α → Except CompileError γ} {more : β → Except CompileError δ}
    (hnext : ∀ a, Follows f k (next a) (more (g a))) : Follows f k (x >>= next) (y >>= more) := by
  cases x with
  | error e =>
    cases h
    exact rfl
  | ok a =>
    cases h
    exact hnext a

theorem referredBy {x : Except CompileError α} {y : Except CompileError β} (h : Follows f g x y) (kind : Kind) :
    Follows f g (x.mapError (.reference kind)) (y.mapError (.reference kind)) := by
  cases x <;> cases h <;> exact rfl

theorem skipIf {skip : Bool} {output : α} {x y : Except CompileError α} (h : Follows f id x y) :
    Follows f id (if skip then pure output else x) (if skip then pure output else y) := by
  cases skip
  · exact h
  · exact rfl

theorem mapM {next : α → Except CompileError γ} {more : β → Except CompileError γ} (items : List α)
    (h : ∀ a, Follows f id (next a) (more (g a))) :
    Follows f id (items.mapM next) ((items.map g).mapM more) := by
  induction items with
  | nil => exact rfl
  | cons a items ih =>
    rw [List.map_cons, List.mapM_cons, List.mapM_cons]
    exact (h a).bind fun c => ih.bind fun cs => rfl

end Follows

namespace Recipe

variable {rank rank' : Nat}

/-- The second recipe goes the way of the first under other numbers, and ends with what a function makes of its result. The kinds that the recipes are for need not be of one rank. -/
inductive Follows (f : StampId → StampId) (g : α → β) : Recipe rank α → Recipe rank' β → Prop
  | done (a : α) : Follows f g (.done a) (.done (g a))
  | fail (e : CompileError) : Follows f g (.fail e) (.fail (e.renumber f))
  | refer (id : StampId) (kind : Kind) (lower : kind.rank < rank) (lower' : kind.rank < rank')
      {next : String → Recipe rank α} {more : String → Recipe rank' β}
      (h : ∀ key, Follows f g (next key) (more key)) :
      Follows f g (.refer id kind lower next) (.refer (f id) kind lower' more)

namespace Follows

theorem bind {x : Recipe rank α} {y : Recipe rank' β} (h : x.Follows f g y) {next : α → Recipe rank γ}
    {more : β → Recipe rank' δ} (hnext : ∀ a, (next a).Follows f k (more (g a))) :
    (x >>= next).Follows f k (y >>= more) := by
  change (x.andThen next).Follows f k (y.andThen more)
  induction h with
  | done a => exact hnext a
  | fail e => exact .fail e
  | refer id kind lower lower' _ ih => exact .refer id kind lower lower' ih

theorem lift {x : Except CompileError α} {y : Except CompileError β} (h : ApplianceConfig.Follows f g x y) :
    (liftM x : Recipe rank α).Follows f g (liftM y : Recipe rank' β) := by
  cases x with
  | error e =>
    cases h
    exact .fail e
  | ok a =>
    cases h
    exact .done a

theorem ofExcept {x : Except CompileError α} {y : Except CompileError β} (h : ApplianceConfig.Follows f g x y) :
    (Recipe.ofExcept x : Recipe rank α).Follows f g (.ofExcept y : Recipe rank' β) := lift h

theorem key (id : StampId) (kind : Kind) (lower : kind.rank < rank) (lower' : kind.rank < rank') :
    (Recipe.key id kind lower).Follows f (fun key => key) (Recipe.key (f id) kind lower') :=
  .refer id kind lower lower' fun key => .done key

theorem skipIf {skip : Bool} {output : α} {x : Recipe rank α} {y : Recipe rank' α} (h : x.Follows f id y) :
    (if skip then pure output else x).Follows f id (if skip then pure output else y) := by
  cases skip
  · exact h
  · exact .done output

theorem mapM {next : α → Recipe rank γ} {more : β → Recipe rank' γ} (items : List α)
    (h : ∀ a, (next a).Follows f id (more (g a))) :
    (items.mapM next).Follows f id ((items.map g).mapM more) := by
  have hloop : ∀ done : List γ, (List.mapM.loop next items done).Follows f id
      (List.mapM.loop more (items.map g) done) := by
    induction items with
    | nil => exact fun done => .done _
    | cons a items ih => exact fun done => (h a).bind fun c => ih (c :: done)
  exact hloop []

/-- A recipe whose failures and questions do not change goes its own way under other numbers. -/
theorem of_settles {x : Recipe rank α} {fails : CompileError → Prop} {asks : StampId → Kind → Prop}
    {post : α → Prop} (h : x.Settles fails asks post) (hfails : ∀ e, fails e → e.renumber f = e)
    (hasks : ∀ id kind, asks id kind → f id = id) : x.Follows f id x := by
  induction x with
  | done a => exact .done a
  | fail e =>
    have hfail : (Recipe.fail e : Recipe rank α).Follows f id (.fail (e.renumber f) : Recipe rank α) := .fail e
    rwa [hfails e h] at hfail
  | refer target kind lower next ih =>
    obtain ⟨hasked, hnext⟩ := h
    have hrefer := Follows.refer target kind lower lower fun key => ih key (hnext key)
    rwa [hasks target kind hasked] at hrefer

theorem run {x : Recipe rank α} {y : Recipe rank' β} (h : x.Follows f g y)
    {answer : (id : StampId) → (kind : Kind) → kind.rank < rank → Except CompileError String}
    {later : (id : StampId) → (kind : Kind) → kind.rank < rank' → Except CompileError String}
    (hanswer : ∀ id kind lower lower', ApplianceConfig.Follows f (fun key => key) (answer id kind lower)
      (later (f id) kind lower')) :
    ApplianceConfig.Follows f g (x.run .error answer) (y.run .error later) := by
  induction h with
  | done a => exact rfl
  | fail e => exact rfl
  | refer id kind lower lower' _ ih => exact (hanswer id kind lower lower').bind ih

end Follows

end Recipe

end Follows

/-! ### Surroundings under other numbers -/

/-- The other surroundings differ only in the numbers of stamps. -/
inductive Scope.Renumbers (f : StampId → StampId) (scope : Scope) : Scope → Prop
  | intro {stamp? : StampId → Option Stamp} {hookPath? : StampId → Option String}
      (hstamp : ∀ id, stamp? (f id) = (scope.stamp? id).map (Stamp.renumber f))
      (hpath : ∀ id, hookPath? (f id) = scope.hookPath? id) :
      Renumbers f scope { scope with stamp?, hookPath? }

namespace Scope.Renumbers

variable {f : StampId → StampId} {scope other : Scope}

theorem stamp (h : scope.Renumbers f other) (id : StampId) :
    Follows f (Stamp.renumber f) (scope.stamp id) (other.stamp (f id)) := by
  obtain ⟨hstamp, -⟩ := h
  unfold Scope.stamp
  simp only [hstamp]
  cases scope.stamp? id <;> exact rfl

theorem stampPath (h : scope.Renumbers f other) (id : StampId) (name : String) :
    Follows f (fun path => path) (scope.stampPath id name) (other.stampPath (f id) name) := by
  have hstamp := h.stamp id
  obtain ⟨-, hpath⟩ := h
  unfold Scope.stampPath
  simp only [hpath]
  cases scope.hookPath? id with
  | some path => exact rfl
  | none =>
    refine hstamp.bind fun stamp => ?_
    rw [Stamp.kind_renumber]
    exact rfl

theorem routeDomainSuffix (h : scope.Renumbers f other) (routeDomain : Option StampId) :
    Follows f (fun suffix => suffix) (scope.routeDomainSuffix routeDomain)
      (other.routeDomainSuffix (routeDomain.map f)) := by
  cases routeDomain with
  | none => exact rfl
  | some id => exact (h.stamp id).bind fun stamp => by cases stamp <;> exact rfl

end Scope.Renumbers

theorem Scope.fillAs_follows {f : StampId → StampId} (scope : Scope) (template : Document) (path : List String)
    (name : String) (change : Entries → Entries) :
    Follows f (fun document => document) (scope.fillAs template path name change)
      (scope.fillAs template path name change) := by
  unfold fillAs
  dsimp only
  split <;> exact rfl

/-! ### Rules -/

section Rules

variable {f : StampId → StampId} {rank rank' : Nat}

theorem keySet_follows (ids : List StampId) (kind : Kind) (lower : kind.rank < rank) (lower' : kind.rank < rank') :
    (keySet ids kind lower).Follows f id (keySet (ids.map f) kind lower') := by
  have hkeys : (ids.mapM fun id => Recipe.key id kind lower).Follows f id
      ((ids.map f).mapM fun id => Recipe.key id kind lower') :=
    .mapM ids fun target => .key target kind lower lower'
  exact hkeys.bind fun keys => .done _

theorem RuleMatch.part_follows {α β : Type} (name : String) {items : List α} {others : List β}
    (hempty : others.isEmpty = items.isEmpty) {value : Recipe rank Value} {other : Recipe rank' Value}
    (h : value.Follows f id other) : (part name items value).Follows f id (part name others other) := by
  unfold part
  rw [hempty]
  exact .skipIf (h.bind fun value => .done _)

theorem RuleMatch.entries_follows (side : RuleMatch) (low : 0 < rank) (low' : 0 < rank') :
    (side.entries low).Follows f id ((side.renumber f).entries low') := by
  have hkeys (name : String) (ids : List StampId) (kind : Kind) (lower : kind.rank < rank)
      (lower' : kind.rank < rank') : (part name ids (keySet ids kind lower)).Follows f id
        (part name (ids.map f) (keySet (ids.map f) kind lower')) :=
    part_follows name (List.isEmpty_map ..) (keySet_follows ids kind lower lower')
  have hplain (name : String) (items : List String) (value : Value) :
      (part name items (pure value) : Recipe rank Entries).Follows f id
        (part name items (pure value) : Recipe rank' Entries) :=
    part_follows name rfl (.done value)
  refine (hkeys "address-lists" _ _ _ _).bind fun addressLists => ?_
  refine (hplain "addresses" _ _).bind fun addresses => ?_
  refine (hkeys "port-lists" _ _ _ _).bind fun portLists => ?_
  refine (hplain "ports" _ _).bind fun ports => ?_
  exact (hkeys "vlans" _ _ _ _).bind fun vlans => .done _

theorem Rule.side_follows (name : String) (side : RuleMatch) (low : 0 < rank) (low' : 0 < rank') :
    (Rule.side name side low).Follows f id (Rule.side name (side.renumber f) low') := by
  have hempty : (side.renumber f).isEmpty = side.isEmpty := by
    simp only [RuleMatch.isEmpty, RuleMatch.renumber, List.isEmpty_map]
  unfold Rule.side
  rw [hempty]
  exact .skipIf ((side.entries_follows low low').bind fun entries => .done _)

theorem Rule.body_follows (rule : Rule) (low : 0 < rank) (low' : 0 < rank') :
    (rule.body low).Follows f id ((rule.renumber f).body low') :=
  (side_follows "destination" rule.destination low low').bind fun _ =>
    (side_follows "source" rule.source low low').bind fun _ => .done _

end Rules

namespace Scope.Renumbers

variable {f : StampId → StampId} {scope other : Scope} {rank rank' : Nat}

theorem ruleEntry (h : scope.Renumbers f other) (rule : AttachedRule) (low : 1 < rank) (low' : 1 < rank') :
    (rule.entry scope low).Follows f id ((rule.renumber f).entry other low') := by
  cases rule with
  | inline rule => exact (rule.body_follows _ _).bind fun body => .done _
  | list target =>
    refine (Recipe.Follows.lift (h.stamp target)).bind fun stamp => ?_
    cases stamp with
    | ruleList rules => exact (Recipe.Follows.key target .ruleList _ _).bind fun key => .done _
    | _ => exact .fail _

theorem ruleBlock (h : scope.Renumbers f other) (rules : List AttachedRule) (low : 1 < rank) (low' : 1 < rank') :
    (AttachedRule.block rules scope low).Follows f id
      (AttachedRule.block (rules.map (AttachedRule.renumber f)) other low') :=
  (Recipe.Follows.mapM rules fun rule => h.ruleEntry rule low low').bind fun _ => .done _

theorem attachedRules (h : scope.Renumbers f other) (attach : Bool) (rules : List AttachedRule)
    (low : 1 < rank) (low' : 1 < rank') :
    (ApplianceConfig.attachedRules attach rules scope low).Follows f id
      (ApplianceConfig.attachedRules attach (rules.map (AttachedRule.renumber f)) other low') := by
  unfold ApplianceConfig.attachedRules
  rw [List.isEmpty_map]
  split
  · exact (h.ruleBlock rules low low').bind fun block => .done _
  · exact .done _

end Scope.Renumbers

/-! ### Recipes of each kind -/

namespace Scope.Renumbers

variable {f : StampId → StampId} {scope other : Scope}

theorem firewall (h : scope.Renumbers f other) (firewall : Firewall) (template : Document) :
    (firewall.modern scope template).Follows f id ((firewall.renumber f).modern other template) := by
  have hrules := h.ruleBlock firewall.rules Nat.one_lt_two Nat.one_lt_two
  obtain ⟨-, -⟩ := h
  refine .skipIf (hrules.bind fun rules => ?_)
  exact (Recipe.Follows.lift (scope.fillAs_follows ..)).bind fun template => .done _

theorem ruleList (h : scope.Renumbers f other) (list : RuleList) (template : Document) :
    (list.modern scope template).Follows f id ((list.renumber f).modern other template) := by
  have hrules : (list.rules.mapM fun rule => return (rule.name, ← rule.body Nat.one_pos) : Recipe 1 _).Follows f id
      ((list.rules.map (Rule.renumber f)).mapM fun rule => return (rule.name, ← rule.body Nat.one_pos)) :=
    .mapM list.rules fun rule => (rule.body_follows _ _).bind fun body => .done _
  obtain ⟨-, -⟩ := h
  refine .skipIf (hrules.bind fun rules => ?_)
  exact (Recipe.Follows.lift (scope.fillAs_follows ..)).bind fun template => .done _

theorem selfIpModern (h : scope.Renumbers f other) (selfIp : SelfIp) (template : Document) :
    (selfIp.modern scope template).Follows f id ((selfIp.renumber f).modern other template) := by
  have hsuffix := h.routeDomainSuffix selfIp.routeDomain
  have hrules := h.attachedRules true selfIp.rules Nat.one_lt_two Nat.one_lt_two
  obtain ⟨-, -⟩ := h
  refine .skipIf ((Recipe.Follows.lift hsuffix).bind fun suffix => ?_)
  refine (Recipe.Follows.key selfIp.vlan .vlan _ _).bind fun vlan => hrules.bind fun rules => ?_
  exact (Recipe.Follows.lift (scope.fillAs_follows ..)).bind fun template => .done _

theorem selfIpLegacy (h : scope.Renumbers f other) (selfIp : SelfIp) (template : Document) :
    (selfIp.legacy scope template).Follows f id ((selfIp.renumber f).legacy other template) := by
  obtain ⟨-, -⟩ := h
  refine (Recipe.Follows.key selfIp.vlan .vlan _ _).bind fun vlan => ?_
  exact (Recipe.Follows.lift (scope.fillAs_follows ..)).bind fun template => .done _

theorem routeDomain (h : scope.Renumbers f other) (domain : RouteDomain) (template : Document) :
    (domain.modern scope template).Follows f id ((domain.renumber f).modern other template) := by
  have hvlans : (domain.vlans.mapM fun id => Recipe.key id .vlan Nat.two_pos : Recipe 2 _).Follows f id
      ((domain.vlans.map f).mapM fun id => Recipe.key id .vlan Nat.two_pos) :=
    .mapM domain.vlans fun target => .key target .vlan _ _
  have hrules := h.attachedRules (scope.context.feature "afm") domain.rules Nat.one_lt_two Nat.one_lt_two
  obtain ⟨-, -⟩ := h
  refine hvlans.bind fun vlans => hrules.bind fun rules => ?_
  exact (Recipe.Follows.lift (scope.fillAs_follows ..)).bind fun template => .done _

theorem nodeModern (h : scope.Renumbers f other) (node : Node) (template : Document) :
    Follows f id (node.modern scope template) ((node.renumber f).modern other template) := by
  have hsuffix := h.routeDomainSuffix node.routeDomain
  obtain ⟨-, -⟩ := h
  refine .skipIf (hsuffix.bind fun suffix => ?_)
  exact (scope.fillAs_follows ..).bind fun template => rfl

theorem nodeLegacy (h : scope.Renumbers f other) (node : Node) (template : Document) :
    Follows f id (node.legacy scope template) ((node.renumber f).legacy other template) := by
  obtain ⟨-, -⟩ := h
  exact .skipIf ((scope.fillAs_follows ..).bind fun template => rfl)

theorem target (h : scope.Renumbers f other) (member : Member) :
    Follows f (Node.renumber f) (member.target scope) ((member.renumber f).target other) :=
  (h.stamp member.node).bind fun stamp => by cases stamp <;> exact rfl

theorem portSeparator_follows (address : String) :
    Follows f (fun separator => separator) (portSeparator address) (portSeparator address) := by
  unfold portSeparator
  split <;> exact rfl

theorem separator_follows (node : Node) (key : String) :
    Follows f id (Member.separator node key) (Member.separator (node.renumber f) key) := by
  change Follows f id _ (Member.separator node key)
  unfold Member.separator
  split
  · exact portSeparator_follows key
  · exact rfl

theorem poolModern (h : scope.Renumbers f other) (pool : Pool) (template : Document) :
    (pool.modern scope template).Follows f id ((pool.renumber f).modern other template) := by
  have hmember (member : Member) :
      (member.modernEntry scope).Follows f id ((member.renumber f).modernEntry other) := by
    refine (Recipe.Follows.lift (h.target member)).bind fun node => ?_
    refine (Recipe.Follows.key member.node .node _ _).bind fun key => ?_
    exact (Recipe.Follows.lift (separator_follows node key)).bind fun separator => .done _
  have hmembers : (pool.members.mapM fun member => member.modernEntry scope : Recipe 1 _).Follows f id
      ((pool.members.map (Member.renumber f)).mapM fun member => member.modernEntry other) :=
    .mapM pool.members hmember
  obtain ⟨-, -⟩ := h
  refine .skipIf (hmembers.bind fun members => ?_)
  exact (Recipe.Follows.lift (scope.fillAs_follows ..)).bind fun template => .done _

theorem poolLegacy (h : scope.Renumbers f other) (pool : Pool) (template : Document) :
    Follows f id (pool.legacy scope template) ((pool.renumber f).legacy other template) := by
  have hmember (member : Member) :
      Follows f id (member.legacyEntries scope) ((member.renumber f).legacyEntries other) := by
    refine (h.target member).bind fun node => ?_
    exact (portSeparator_follows node.address).bind fun separator => rfl
  have hmembers : Follows f id (pool.members.mapM fun member => member.legacyEntries scope)
      ((pool.members.map (Member.renumber f)).mapM fun member => member.legacyEntries other) :=
    .mapM pool.members hmember
  obtain ⟨-, -⟩ := h
  refine .skipIf (hmembers.bind fun members => ?_)
  exact (scope.fillAs_follows ..).bind fun template => rfl

theorem profile (h : scope.Renumbers f other) (target : StampId) :
    Follows f id (VirtualServer.profile scope target) (VirtualServer.profile other (f target)) :=
  (h.stamp target).bind fun stamp => by cases stamp <;> exact rfl

theorem profileEntries (h : scope.Renumbers f other) (server : VirtualServer) :
    Follows f id (server.profileEntries scope) ((server.renumber f).profileEntries other) := by
  refine .mapM server.profiles fun target => ?_
  refine (h.profile target).bind fun profile => ?_
  exact (h.stampPath target profile.name).bind fun path => rfl

theorem profileNames (h : scope.Renumbers f other) (server : VirtualServer) :
    Follows f id (server.profileNames scope) ((server.renumber f).profileNames other) :=
  (Follows.mapM server.profiles h.profile).bind fun _ => rfl

theorem destination (h : scope.Renumbers f other) (server : VirtualServer) :
    Follows f id (server.destination scope) ((server.renumber f).destination other) := by
  refine (portSeparator_follows server.address).bind fun separator => ?_
  exact (h.routeDomainSuffix server.routeDomain).bind fun suffix => rfl

theorem poolKey_follows (server : VirtualServer) :
    server.poolKey.Follows f id (server.renumber f).poolKey := by
  unfold VirtualServer.poolKey VirtualServer.renumber
  cases server.pool with
  | none => exact .done none
  | some target => exact (Recipe.Follows.key target .pool _ _).bind fun key => .done _

theorem serverModern (h : scope.Renumbers f other) (server : VirtualServer) (template : Document) :
    (server.modern scope template).Follows f id ((server.renumber f).modern other template) := by
  have hsuffix := h.routeDomainSuffix server.routeDomain
  have hprofiles := h.profileEntries server
  have hrules := h.attachedRules (scope.context.feature "afm") server.rules Nat.one_lt_two Nat.one_lt_two
  have hdestination := h.destination server
  obtain ⟨-, -⟩ := h
  refine .skipIf ((Recipe.Follows.lift hsuffix).bind fun suffix => ?_)
  refine (Recipe.Follows.lift hprofiles).bind fun profiles => hrules.bind fun rules => ?_
  refine (poolKey_follows server).bind fun pool => ?_
  refine (Recipe.Follows.lift hdestination).bind fun destination => ?_
  refine (Recipe.Follows.lift (scope.fillAs_follows ..)).bind fun template => ?_
  exact (Recipe.Follows.lift (scope.fillAs_follows ..)).bind fun template => .done _

theorem serverLegacy (h : scope.Renumbers f other) (server : VirtualServer) (template : Document) :
    (server.legacy scope template).Follows f id ((server.renumber f).legacy other template) := by
  have hnames := h.profileNames server
  have hdestination := h.destination server
  obtain ⟨-, -⟩ := h
  refine .skipIf ((Recipe.Follows.lift hnames).bind fun names => ?_)
  refine (poolKey_follows server).bind fun pool => ?_
  refine (Recipe.Follows.lift hdestination).bind fun destination => ?_
  exact (Recipe.Follows.lift (scope.fillAs_follows ..)).bind fun template => .done _

/-- The recipe of a stamp follows that of the stamp with other numbers. -/
theorem recipe (h : scope.Renumbers f other) (stamp : Stamp) (dialect : Dialect) :
    (stamp.recipe dialect scope (Template.document stamp.kind dialect)).Follows f id
      ((stamp.renumber f).recipe dialect other (Template.document stamp.kind dialect)) := by
  -- a stamp without references goes its own way: it asks nothing, and fails only for its address
  have hplain (huses : stamp.uses = []) :
      (stamp.recipe dialect scope (Template.document stamp.kind dialect)).Follows f id
        (stamp.recipe dialect scope (Template.document stamp.kind dialect)) := by
    refine .of_settles (stamp.recipe_settles dialect scope) (fun e he => ?_) fun target kind hasks => ?_
    · cases he with
      | address => rfl
      | nodeAddress => rfl
      | unhooked => rfl
      | mistyped => rfl
      | missing huse =>
        rw [huses] at huse
        cases huse
    · have huse := hasks.1
      rw [huses] at huse
      cases huse
  cases dialect with
  | modern =>
    cases stamp with
    | node node => exact .ofExcept (h.nodeModern node _)
    | pool pool => exact h.poolModern pool _
    | virtualServer server => exact h.serverModern server _
    | selfIp selfIp => exact h.selfIpModern selfIp _
    | routeDomain domain => exact h.routeDomain domain _
    | ruleList list => exact h.ruleList list _
    | firewall firewall => exact h.firewall firewall _
    | _ =>
      obtain ⟨-, -⟩ := h
      exact hplain rfl
  | legacy =>
    cases stamp with
    | node node => exact .ofExcept (h.nodeLegacy node _)
    | pool pool => exact .ofExcept (h.poolLegacy pool _)
    | virtualServer server => exact h.serverLegacy server _
    | selfIp selfIp => exact h.selfIpLegacy selfIp _
    | routeDomain domain => exact .done _
    | ruleList list => exact .done _
    | firewall firewall => exact .done _
    | _ =>
      obtain ⟨-, -⟩ := h
      exact hplain rfl

end Scope.Renumbers

/-! ### Trees under other numbers -/

def Slot.renumber (f : StampId → StampId) (slot : Slot) : Slot := { slot with stamp := slot.stamp.renumber f }

namespace Tree

/-- The other tree has the same folders, with the same stamps in the same order, but for the numbers of the stamps. -/
structure Renumbers (f : StampId → StampId) (tree other : Tree) : Prop where
  shape : tree.SameShape other
  context : other.context = tree.context
  content : ∀ id, (other.folder id).content = (tree.folder id).content.map f
  slot : ∀ id, other.slot? (f id) = (tree.slot? id).map (Slot.renumber f)

namespace Renumbers

variable {f : StampId → StampId} {tree other : Tree}

theorem stamp? (h : tree.Renumbers f other) (id : StampId) : other.stamp? (f id) = (tree.stamp? id).map (Stamp.renumber f) := by
  rw [Tree.stamp?, Tree.stamp?, h.slot, Option.map_map, Option.map_map]
  rfl

theorem stampFolder? (h : tree.Renumbers f other) (id : StampId) : other.stampFolder? (f id) = tree.stampFolder? id := by
  rw [Tree.stampFolder?, Tree.stampFolder?, h.slot]
  cases tree.slot? id <;> rfl

theorem scope (h : tree.Renumbers f other) (folder : FolderId) (kind : Kind) :
    (tree.scope folder kind).Renumbers f (other.scope folder kind) := by
  have hscope : other.scope folder kind = { tree.scope folder kind with
      stamp? := other.stamp?
      hookPath? := fun id => (other.stampFolder? id).map other.path } := by
    simp only [Tree.scope, h.context, h.shape.path_eq, h.shape.partitionOf_eq, h.shape.name, h.shape.index]
  rw [hscope]
  refine .intro h.stamp? fun id => ?_
  rw [h.stampFolder?, show other.path = tree.path from funext h.shape.path_eq]
  rfl

theorem answer (h : tree.Renumbers f other) {asker kind : Kind} {target : StampId}
    (hresult : ∀ slot, tree.slot? target = some slot → slot.stamp.kind = kind →
      Follows f id (tree.result slot) (other.result (slot.renumber f))) :
    Follows f (fun key => key) (tree.answer asker target kind) (other.answer asker (f target) kind) := by
  unfold Tree.answer
  rw [h.slot]
  cases hslot : tree.slot? target with
  | none => exact rfl
  | some slot =>
    have hsame : (slot.renumber f).stamp.kind = slot.stamp.kind := slot.stamp.kind_renumber f
    simp only [Option.map_some, hsame]
    by_cases hkind : slot.stamp.kind = kind
    · simp only [if_pos hkind]
      refine ((hresult slot hslot hkind).referredBy asker).bind fun compiled => ?_
      obtain ⟨_ | key, value, dialect⟩ := compiled <;> exact rfl
    · simp only [if_neg hkind]
      exact rfl

/-- The recipe of a stamp on its template, in both trees. -/
theorem recipe (h : tree.Renumbers f other) (stamp : Stamp) (folder : FolderId) :
    let dialect := stamp.dialect tree.context.version
    let later := (stamp.renumber f).dialect other.context.version
    (stamp.recipe dialect (tree.scope folder stamp.kind) (Template.document stamp.kind dialect)).Follows f id
      ((stamp.renumber f).recipe later (other.scope folder (stamp.renumber f).kind)
        (Template.document (stamp.renumber f).kind later)) := by
  intro dialect later
  have hlater : later = dialect := by
    rw [show later = stamp.dialect other.context.version from stamp.dialect_renumber f _, h.context]
  have hscope := congrArg (other.scope folder) (stamp.kind_renumber f)
  have htemplate := congrArg (Template.document · dialect) (stamp.kind_renumber f)
  rw [hlater, hscope, htemplate]
  exact (h.scope folder stamp.kind).recipe stamp dialect

/-- A stamp compiles to the same under another number. -/
theorem result (h : tree.Renumbers f other) (slot : Slot) :
    Follows f id (tree.result slot) (other.result (slot.renumber f)) := by
  obtain ⟨stamp, hooked⟩ := slot
  rw [tree.result_eq, other.result_eq]
  cases hooked with
  | none =>
    change Except.error (CompileError.missingContext (stamp.renumber f).kind) = _
    rw [Stamp.kind_renumber]
    rfl
  | some folder =>
    have hanswer (target : StampId) (kind : Kind) (lower : kind.rank < stamp.kind.rank) :
        Follows f (fun key => key) (tree.answer stamp.kind target kind)
          (other.answer (stamp.renumber f).kind (f target) kind) := by
      rw [Stamp.kind_renumber]
      exact h.answer fun slot _ hkind => h.result slot
    simp only [Template.parse_eq]
    refine Follows.bind ((h.recipe stamp folder).run ?_) fun output => ?_
    · exact fun target kind lower _ => hanswer target kind lower
    · have hdialect : (stamp.renumber f).dialect other.context.version = stamp.dialect tree.context.version := by
        rw [Stamp.dialect_renumber, h.context]
      exact congrArg (fun dialect => Except.ok (Compiled.mk output.key output.value dialect)) hdialect
  termination_by slot.stamp.kind.rank
  decreasing_by
    rw [hkind]
    exact lower

theorem stampText (h : tree.Renumbers f other) (indent : Nat) (id : StampId) :
    Follows f (fun text => text) (tree.stampText indent id) (other.stampText indent (f id)) := by
  have houtcome : Follows f (fun compiled => compiled) (tree.outcome id) (other.outcome (f id)) := by
    unfold outcome
    rw [h.slot]
    cases tree.slot? id with
    | none => exact rfl
    | some slot => exact h.result slot
  refine houtcome.bind fun ⟨key, value, dialect⟩ => ?_
  cases value <;> exact rfl

theorem accepts (h : tree.Renumbers f other) (id : StampId) :
    other.accepts (fun _ => true) (f id) = tree.accepts (fun _ => true) id := by
  unfold Tree.accepts
  rw [h.stamp?]
  cases tree.stamp? id with
  | none => rfl
  | some stamp => exact congrArg (fun builtIn => !builtIn && true) (stamp.builtIn_renumber f)

/-- A tree renders to the same under other numbers. -/
theorem rendering (h : tree.Renumbers f other) (start : FolderId) (options : RenderOptions) :
    Follows f (fun text => text) (tree.rendering start options fun _ => true)
      (other.rendering start options fun _ => true) := by
  have hfolder (folder : FolderId) : (other.folder folder).content.filter (other.accepts fun _ => true) =
      ((tree.folder folder).content.filter (tree.accepts fun _ => true)).map f := by
    have haccepts : (other.accepts fun _ => true) ∘ f = tree.accepts fun _ => true := funext h.accepts
    rw [h.content, List.filter_map, haccepts]
  unfold Tree.rendering
  simp only [h.shape.visited_eq, hfolder, ← List.map_flatMap]
  exact (Follows.mapM _ (h.stampText options.indent)).bind fun texts => rfl

end Renumbers

end Tree

end ApplianceConfig
