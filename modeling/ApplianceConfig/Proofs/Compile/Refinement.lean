import ApplianceConfig.Compile.Run

/-!
# Recipes in larger surroundings

A stamp that sees more of a tree asks the same questions and comes to the same output, unless it failed for want of what it did not see. Such a recipe refines the other, and refinement goes through sequences and lists of recipes part by part.
-/

namespace ApplianceConfig

/-- A relation between computations that goes through sequences goes through lists. -/
theorem mapM_related {m n : Type → Type} [Monad m] [Monad n] (R : (γ : Type) → m γ → n γ → Prop)
    (hpure : ∀ {γ : Type} (c : γ), R γ (pure c) (pure c))
    (hbind : ∀ {γ δ : Type} {x : m γ} {y : n γ} {f : γ → m δ} {g : γ → n δ}, R γ x y →
      (∀ c, R δ (f c) (g c)) → R δ (x >>= f) (y >>= g))
    {α β : Type} {f : α → m β} {g : α → n β} (h : ∀ a, R β (f a) (g a)) (items : List α) :
    R (List β) (items.mapM f) (items.mapM g) := by
  have hloop : ∀ done, R (List β) (List.mapM.loop f items done) (List.mapM.loop g items done) := by
    induction items with
    | nil => exact fun done => hpure _
    | cons a items ih => exact fun done => hbind (h a) fun b => ih (b :: done)
  exact hloop []

/-- What the first computation results in, the second one results in too. -/
def Within {α : Type} (x y : Except CompileError α) : Prop := ∀ a, x = .ok a → y = .ok a

namespace Within

variable {α β : Type} {x y : Except CompileError α}

theorem refl (x : Except CompileError α) : Within x x := fun _ h => h

theorem error (e : CompileError) (y : Except CompileError α) : Within (.error e) y := by
  intro a h
  cases h

theorem bind (h : Within x y) {f g : α → Except CompileError β} (hnext : ∀ a, Within (f a) (g a)) :
    Within (x >>= f) (y >>= g) := by
  intro b hb
  cases x with
  | error e => cases hb
  | ok a =>
    rw [h a rfl]
    exact hnext a b hb

theorem mapError (h : Within x y) {f : CompileError → CompileError} :
    Within (x.mapError f) (y.mapError f) := by
  intro a ha
  cases x with
  | error e => cases ha
  | ok found =>
    rw [h found rfl]
    exact ha

theorem skipIf {skip : Bool} {output : Except CompileError α} (h : Within x y) :
    Within (if skip then output else x) (if skip then output else y) := by
  cases skip
  · exact h
  · exact refl output

theorem mapM {f g : α → Except CompileError β} (h : ∀ a, Within (f a) (g a)) (items : List α) :
    Within (items.mapM f) (items.mapM g) :=
  mapM_related (fun _ => Within) (fun _ => refl _) (fun h hnext => h.bind hnext) h items

end Within

namespace Recipe

variable {rank : Nat} {α β : Type}

/-- The second recipe goes the way of the first, and may go on where the first fails. -/
inductive Refines : Recipe rank α → Recipe rank α → Prop
  | fail (e : CompileError) (other : Recipe rank α) : Refines (.fail e) other
  | done (result : α) : Refines (.done result) (.done result)
  | refer (id : StampId) (kind : Kind) (lower : kind.rank < rank) {next more : String → Recipe rank α}
      (h : ∀ key, Refines (next key) (more key)) :
      Refines (.refer id kind lower next) (.refer id kind lower more)

namespace Refines

theorem refl (recipe : Recipe rank α) : Refines recipe recipe := by
  induction recipe with
  | done result => exact .done result
  | fail e => exact .fail e _
  | refer id kind lower next ih => exact .refer id kind lower ih

theorem bind {x y : Recipe rank α} (h : Refines x y) {f g : α → Recipe rank β}
    (hnext : ∀ a, Refines (f a) (g a)) : Refines (x >>= f) (y >>= g) := by
  change Refines (x.andThen f) (y.andThen g)
  induction h with
  | fail e other => exact .fail e _
  | done result => exact hnext result
  | refer id kind lower _ ih => exact .refer id kind lower ih

theorem lift {x y : Except CompileError α} (h : Within x y) :
    Refines (liftM x : Recipe rank α) (liftM y) := by
  cases x with
  | error e => exact .fail e _
  | ok a =>
    rw [h a rfl]
    exact refl _

theorem ofExcept {x y : Except CompileError α} (h : Within x y) :
    Refines (.ofExcept x : Recipe rank α) (.ofExcept y) := lift h

theorem mapM {f g : α → Recipe rank β} (h : ∀ a, Refines (f a) (g a)) (items : List α) :
    Refines (items.mapM f) (items.mapM g) :=
  mapM_related (fun _ => Refines) (fun _ => refl _) (fun h hnext => h.bind hnext) h items

theorem skipIf {skip : Bool} {output x y : Recipe rank α} (h : Refines x y) :
    Refines (if skip then output else x) (if skip then output else y) := by
  cases skip
  · exact h
  · exact refl output

/-- What a recipe results in stays when it is refined and the answers to its questions stay. -/
theorem run_eq_ok {x y : Recipe rank α} (h : Refines x y)
    {answer later : (id : StampId) → (kind : Kind) → kind.rank < rank → Except CompileError String}
    (hanswer : ∀ id kind lower, Within (answer id kind lower) (later id kind lower)) :
    Within (x.run .error answer) (y.run .error later) := by
  induction h with
  | fail e other => exact .error e _
  | done result => exact .refl _
  | refer id kind lower _ ih => exact (hanswer id kind lower).bind ih

end Refines

end Recipe

/-! ### Stamps that see more -/

/-- The larger surroundings differ from the smaller ones only by further stamps and folders of stamps. -/
inductive Scope.Extends (small : Scope) : Scope → Prop
  | more {stamp? : StampId → Option Stamp} {hookPath? : StampId → Option String}
      (hstamp : ∀ {id stamp}, small.stamp? id = some stamp → stamp? id = some stamp)
      (hpath : ∀ {id path}, small.hookPath? id = some path → hookPath? id = some path) :
      Extends small { small with stamp?, hookPath? }

namespace Scope.Extends

variable {small large : Scope}

theorem stamp (h : small.Extends large) (id : StampId) : Within (small.stamp id) (large.stamp id) := by
  obtain ⟨hstamp, -⟩ := h
  intro stamp hok
  unfold Scope.stamp at hok ⊢
  cases hsmall : small.stamp? id with
  | none =>
    rw [hsmall] at hok
    cases hok
  | some other =>
    rw [hsmall] at hok
    simp only [hstamp hsmall]
    exact hok

theorem stampPath (h : small.Extends large) (id : StampId) (name : String) :
    Within (small.stampPath id name) (large.stampPath id name) := by
  obtain ⟨-, hpath⟩ := h
  intro path hok
  unfold Scope.stampPath at hok ⊢
  cases hsmall : small.hookPath? id with
  | none =>
    rw [hsmall] at hok
    cases hstamp : small.stamp id <;> rw [hstamp] at hok <;> cases hok
  | some other =>
    rw [hsmall] at hok
    simp only [hpath hsmall]
    exact hok

theorem routeDomainSuffix (h : small.Extends large) (routeDomain : Option StampId) :
    Within (small.routeDomainSuffix routeDomain) (large.routeDomainSuffix routeDomain) := by
  cases routeDomain with
  | none => exact .refl _
  | some id => exact (h.stamp id).bind fun _ => .refl _

section Rules

variable {rank : Nat}

theorem attachedRule (h : small.Extends large) (rule : AttachedRule) (low : 1 < rank) :
    (rule.entry small low).Refines (rule.entry large low) := by
  cases rule with
  | inline rule => exact .refl _
  | list id => exact (Recipe.Refines.lift (h.stamp id)).bind fun _ => .refl _

theorem ruleBlock (h : small.Extends large) (rules : List AttachedRule) (low : 1 < rank) :
    (AttachedRule.block rules small low).Refines (AttachedRule.block rules large low) :=
  (Recipe.Refines.mapM (fun rule => h.attachedRule rule low) rules).bind fun _ => .refl _

theorem attachedRules (h : small.Extends large) (attach : Bool) (rules : List AttachedRule)
    (low : 1 < rank) :
    (ApplianceConfig.attachedRules attach rules small low).Refines
      (ApplianceConfig.attachedRules attach rules large low) := by
  unfold ApplianceConfig.attachedRules
  split
  · exact (h.ruleBlock rules low).bind fun _ => .refl _
  · exact .refl _

end Rules

/-! ### Recipes of each kind -/

theorem firewall (h : small.Extends large) (firewall : Firewall) (template : Document) :
    (firewall.modern small template).Refines (firewall.modern large template) := by
  have hrules := h.ruleBlock firewall.rules Nat.one_lt_two
  obtain ⟨-, -⟩ := h
  exact .skipIf (hrules.bind fun _ => .refl _)

theorem selfIp (h : small.Extends large) (selfIp : SelfIp) (template : Document) :
    (selfIp.modern small template).Refines (selfIp.modern large template) := by
  have hsuffix := h.routeDomainSuffix selfIp.routeDomain
  have hrules := h.attachedRules true selfIp.rules Nat.one_lt_two
  obtain ⟨-, -⟩ := h
  refine .skipIf ((Recipe.Refines.lift hsuffix).bind fun suffix => ?_)
  refine (Recipe.Refines.refl _).bind fun vlan => ?_
  exact hrules.bind fun rules => .refl _

theorem routeDomain (h : small.Extends large) (domain : RouteDomain) (template : Document) :
    (domain.modern small template).Refines (domain.modern large template) := by
  have hrules := h.attachedRules (small.context.feature "afm") domain.rules Nat.one_lt_two
  obtain ⟨-, -⟩ := h
  refine (Recipe.Refines.refl _).bind fun vlans => ?_
  exact hrules.bind fun rules => .refl _

theorem nodeModern (h : small.Extends large) (node : Node) (template : Document) :
    Within (node.modern small template) (node.modern large template) := by
  have hsuffix := h.routeDomainSuffix node.routeDomain
  obtain ⟨-, -⟩ := h
  exact .skipIf (hsuffix.bind fun suffix => .refl _)

theorem target (h : small.Extends large) (member : Member) :
    Within (member.target small) (member.target large) :=
  (h.stamp member.node).bind fun _ => .refl _

theorem poolModern (h : small.Extends large) (pool : Pool) (template : Document) :
    (pool.modern small template).Refines (pool.modern large template) := by
  have hmembers : Recipe.Refines (pool.members.mapM fun member => member.modernEntry small)
      (pool.members.mapM fun member => member.modernEntry large) :=
    .mapM (fun member => (Recipe.Refines.lift (h.target member)).bind fun node => .refl _) pool.members
  obtain ⟨-, -⟩ := h
  exact .skipIf (hmembers.bind fun members => .refl _)

theorem poolLegacy (h : small.Extends large) (pool : Pool) (template : Document) :
    Within (pool.legacy small template) (pool.legacy large template) := by
  have hmembers : Within (pool.members.mapM fun member => member.legacyEntries small)
      (pool.members.mapM fun member => member.legacyEntries large) :=
    .mapM (fun member => (h.target member).bind fun node => .refl _) pool.members
  obtain ⟨-, -⟩ := h
  exact .skipIf (hmembers.bind fun members => .refl _)

theorem profile (h : small.Extends large) (id : StampId) :
    Within (VirtualServer.profile small id) (VirtualServer.profile large id) :=
  (h.stamp id).bind fun _ => .refl _

theorem profileEntries (h : small.Extends large) (server : VirtualServer) :
    Within (server.profileEntries small) (server.profileEntries large) := by
  refine .mapM (fun id => ?_) server.profiles
  refine (h.profile id).bind fun profile => ?_
  exact (h.stampPath id profile.name).bind fun path => .refl _

theorem profileNames (h : small.Extends large) (server : VirtualServer) :
    Within (server.profileNames small) (server.profileNames large) :=
  (Within.mapM h.profile server.profiles).bind fun _ => .refl _

theorem destination (h : small.Extends large) (server : VirtualServer) :
    Within (server.destination small) (server.destination large) := by
  refine (Within.refl _).bind fun separator => ?_
  exact (h.routeDomainSuffix server.routeDomain).bind fun suffix => .refl _

theorem serverModern (h : small.Extends large) (server : VirtualServer) (template : Document) :
    (server.modern small template).Refines (server.modern large template) := by
  have hsuffix := h.routeDomainSuffix server.routeDomain
  have hprofiles := h.profileEntries server
  have hrules := h.attachedRules (small.context.feature "afm") server.rules Nat.one_lt_two
  have hdestination := h.destination server
  obtain ⟨-, -⟩ := h
  refine .skipIf ((Recipe.Refines.lift hsuffix).bind fun suffix => ?_)
  refine (Recipe.Refines.lift hprofiles).bind fun profiles => ?_
  refine hrules.bind fun rules => ?_
  refine (Recipe.Refines.refl _).bind fun pool => ?_
  exact (Recipe.Refines.lift hdestination).bind fun destination => .refl _

theorem serverLegacy (h : small.Extends large) (server : VirtualServer) (template : Document) :
    (server.legacy small template).Refines (server.legacy large template) := by
  have hnames := h.profileNames server
  have hdestination := h.destination server
  obtain ⟨-, -⟩ := h
  refine .skipIf ((Recipe.Refines.lift hnames).bind fun names => ?_)
  refine (Recipe.Refines.refl _).bind fun pool => ?_
  exact (Recipe.Refines.lift hdestination).bind fun destination => .refl _

/-- Recipes of all kinds are refined when their stamps see more. -/
theorem recipe (h : small.Extends large) (stamp : Stamp) (dialect : Dialect) (template : Document) :
    (stamp.recipe dialect small template).Refines (stamp.recipe dialect large template) := by
  cases dialect with
  | modern =>
    cases stamp with
    | node node => exact .ofExcept (h.nodeModern node template)
    | pool pool => exact h.poolModern pool template
    | virtualServer server => exact h.serverModern server template
    | selfIp selfIp => exact h.selfIp selfIp template
    | routeDomain domain => exact h.routeDomain domain template
    | firewall firewall => exact h.firewall firewall template
    | _ =>
      obtain ⟨-, -⟩ := h
      exact .refl _
  | legacy =>
    cases stamp with
    | pool pool => exact .ofExcept (h.poolLegacy pool template)
    | virtualServer server => exact h.serverLegacy server template
    | _ =>
      obtain ⟨-, -⟩ := h
      exact .refl _

end Scope.Extends

end ApplianceConfig
