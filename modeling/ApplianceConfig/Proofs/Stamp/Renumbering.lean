import ApplianceConfig.Topology.Basic

/-!
# Stamps under other numbers

The numbers by which stamps refer to each other may be changed for others. A stamp that has no reference to a changed number stays what it is. If all ids come to stand for the changed numbers, the stamp that an object becomes is the one that it was, under these numbers.
-/

namespace ApplianceConfig

/-! ### Changing numbers -/

section Renumber

variable (f : StampId → StampId)

def RuleMatch.renumber (side : RuleMatch) : RuleMatch :=
  { side with
    addressLists := side.addressLists.map f
    portLists := side.portLists.map f
    vlans := side.vlans.map f }

def Rule.renumber (rule : Rule) : Rule :=
  { rule with source := rule.source.renumber f, destination := rule.destination.renumber f }

def AttachedRule.renumber : AttachedRule → AttachedRule
  | .inline rule => .inline (rule.renumber f)
  | .list id => .list (f id)

def Node.renumber (node : Node) : Node := { node with routeDomain := node.routeDomain.map f }

def Member.renumber (member : Member) : Member := { member with node := f member.node }

def Pool.renumber (pool : Pool) : Pool :=
  { pool with members := pool.members.map (Member.renumber f) }

def VirtualServer.renumber (server : VirtualServer) : VirtualServer :=
  { server with
    pool := server.pool.map f
    profiles := server.profiles.map f
    rules := server.rules.map (AttachedRule.renumber f)
    routeDomain := server.routeDomain.map f }

def SelfIp.renumber (selfIp : SelfIp) : SelfIp :=
  { selfIp with
    vlan := f selfIp.vlan
    rules := selfIp.rules.map (AttachedRule.renumber f)
    routeDomain := selfIp.routeDomain.map f }

def RouteDomain.renumber (domain : RouteDomain) : RouteDomain :=
  { domain with
    vlans := domain.vlans.map f
    rules := domain.rules.map (AttachedRule.renumber f) }

def RuleList.renumber (list : RuleList) : RuleList :=
  { list with rules := list.rules.map (Rule.renumber f) }

def Firewall.renumber (firewall : Firewall) : Firewall :=
  { firewall with rules := firewall.rules.map (AttachedRule.renumber f) }

/-- The stamp with each reference changed. -/
def Stamp.renumber : Stamp → Stamp
  | .node s => .node (s.renumber f)
  | .pool s => .pool (s.renumber f)
  | .virtualServer s => .virtualServer (s.renumber f)
  | .selfIp s => .selfIp (s.renumber f)
  | .routeDomain s => .routeDomain (s.renumber f)
  | .ruleList s => .ruleList (s.renumber f)
  | .firewall s => .firewall (s.renumber f)
  | other => other

theorem Stamp.kind_renumber (stamp : Stamp) : (stamp.renumber f).kind = stamp.kind := by
  cases stamp <;> rfl

theorem Stamp.builtIn_renumber (stamp : Stamp) : (stamp.renumber f).builtIn = stamp.builtIn := by
  cases stamp <;> rfl

end Renumber

/-! ### Stamps that stay what they are -/

theorem map_eq_self {α : Type} {g : α → α} {items : List α} (h : ∀ a ∈ items, g a = a) : items.map g = items :=
  (List.map_congr_left h).trans (List.map_id' items)

theorem map_eq_self_of_toList {α : Type} {g : α → α} {item : Option α} (h : ∀ a ∈ item.toList, g a = a) :
    item.map g = item := by
  cases item with
  | none => rfl
  | some a => exact congrArg some (h a (List.mem_singleton_self a))

section Fixed

variable {f : StampId → StampId}

theorem RuleMatch.renumber_eq_self {side : RuleMatch} (h : ∀ id ∈ side.references, f id = id) :
    side.renumber f = side := by
  simp only [references, List.forall_mem_append] at h
  obtain ⟨⟨haddress, hport⟩, hvlan⟩ := h
  rw [renumber, map_eq_self haddress, map_eq_self hport, map_eq_self hvlan]

theorem Rule.renumber_eq_self {rule : Rule} (h : ∀ id ∈ rule.references, f id = id) :
    rule.renumber f = rule := by
  obtain ⟨hsource, hdestination⟩ := List.forall_mem_append.mp h
  rw [renumber, RuleMatch.renumber_eq_self hsource, RuleMatch.renumber_eq_self hdestination]

theorem AttachedRule.renumber_eq_self {rule : AttachedRule} (h : ∀ id ∈ rule.references, f id = id) :
    rule.renumber f = rule := by
  cases rule with
  | inline rule => exact congrArg inline (Rule.renumber_eq_self h)
  | list id => exact congrArg list (h id (List.mem_singleton_self id))

theorem AttachedRule.map_renumber_eq_self {rules : List AttachedRule}
    (h : ∀ id ∈ rules.flatMap references, f id = id) : rules.map (renumber f) = rules :=
  map_eq_self fun rule hrule => renumber_eq_self (List.forall_mem_flatMap.mp h rule hrule)

/-- A stamp whose references are not changed is not changed. -/
theorem Stamp.renumber_eq_self {stamp : Stamp} (h : ∀ id ∈ stamp.references, f id = id) :
    stamp.renumber f = stamp := by
  cases stamp with
  | node s =>
    rw [renumber, Node.renumber, map_eq_self_of_toList h]
  | pool s =>
    have hmember : ∀ member ∈ s.members, member.renumber f = member := by
      intro member hmember
      have hnode := List.forall_mem_flatMap.mp h member hmember member.node (List.mem_singleton_self _)
      rw [Member.renumber, hnode]
    rw [renumber, Pool.renumber, map_eq_self hmember]
  | virtualServer s =>
    simp only [references, VirtualServer.references, List.forall_mem_append] at h
    obtain ⟨⟨⟨hprofiles, hrules⟩, hpool⟩, hdomain⟩ := h
    rw [renumber, VirtualServer.renumber, map_eq_self_of_toList hpool, map_eq_self hprofiles,
      AttachedRule.map_renumber_eq_self hrules, map_eq_self_of_toList hdomain]
  | selfIp s =>
    simp only [references, SelfIp.references, List.forall_mem_append, List.forall_mem_cons] at h
    obtain ⟨⟨hvlan, hrules⟩, hdomain⟩ := h
    rw [renumber, SelfIp.renumber, hvlan, AttachedRule.map_renumber_eq_self hrules,
      map_eq_self_of_toList hdomain]
  | routeDomain s =>
    obtain ⟨hvlans, hrules⟩ := List.forall_mem_append.mp h
    rw [renumber, RouteDomain.renumber, map_eq_self hvlans, AttachedRule.map_renumber_eq_self hrules]
  | ruleList s =>
    have hrule := fun rule hrule => Rule.renumber_eq_self (List.forall_mem_flatMap.mp h rule hrule)
    rw [renumber, RuleList.renumber, map_eq_self hrule]
  | firewall s =>
    rw [renumber, Firewall.renumber, AttachedRule.map_renumber_eq_self h]
  | _ => rfl

end Fixed

/-! ### Looking changed numbers up -/

section Resolve

variable {α ε : Type} {find later : α → Except ε StampId} {f : StampId → StampId}

theorem mapM_eq_map {α β γ : Type} {x : α → Except ε β} {y : α → Except ε γ} {g : β → γ} {items : List α}
    (h : ∀ a ∈ items, y a = (x a).map g) : items.mapM y = (items.mapM x).map (List.map g) := by
  induction items with
  | nil => rfl
  | cons a items ih =>
    obtain ⟨ha, hitems⟩ := List.forall_mem_cons.mp h
    rw [List.mapM_cons, List.mapM_cons, ha, ih hitems]
    cases x a with
    | error e => rfl
    | ok b => cases items.mapM x <;> rfl

theorem resolve?_eq_map {item : Option α} (h : ∀ a ∈ item.toList, later a = (find a).map f) :
    resolve? later item = (resolve? find item).map (Option.map f) := by
  cases item with
  | none => rfl
  | some a =>
    rw [resolve?, resolve?, h a (List.mem_singleton_self a)]
    cases find a <;> rfl

theorem RuleMatch.resolve_eq_map {side : RuleMatch α} (h : ∀ a ∈ side.references, later a = (find a).map f) :
    side.resolve later = (side.resolve find).map (renumber f) := by
  simp only [references, List.forall_mem_append] at h
  obtain ⟨⟨haddress, hport⟩, hvlan⟩ := h
  rw [resolve, resolve, mapM_eq_map haddress, mapM_eq_map hport, mapM_eq_map hvlan]
  cases side.addressLists.mapM find with
  | error e => rfl
  | ok addressLists =>
    cases side.portLists.mapM find with
    | error e => rfl
    | ok portLists => cases side.vlans.mapM find <;> rfl

theorem Rule.resolve_eq_map {rule : Rule α} (h : ∀ a ∈ rule.references, later a = (find a).map f) :
    rule.resolve later = (rule.resolve find).map (renumber f) := by
  obtain ⟨hsource, hdestination⟩ := List.forall_mem_append.mp h
  rw [resolve, resolve, RuleMatch.resolve_eq_map hsource, RuleMatch.resolve_eq_map hdestination]
  cases rule.source.resolve find with
  | error e => rfl
  | ok source => cases rule.destination.resolve find <;> rfl

theorem AttachedRule.resolve_eq_map {rule : AttachedRule α} (h : ∀ a ∈ rule.references, later a = (find a).map f) :
    rule.resolve later = (rule.resolve find).map (renumber f) := by
  cases rule with
  | inline rule =>
    rw [resolve, resolve, Rule.resolve_eq_map h]
    cases rule.resolve find <;> rfl
  | list id =>
    rw [resolve, resolve, h id (List.mem_singleton_self id)]
    cases find id <;> rfl

theorem AttachedRule.mapM_resolve_eq_map {rules : List (AttachedRule α)}
    (h : ∀ a ∈ rules.flatMap references, later a = (find a).map f) :
    rules.mapM (resolve later) = (rules.mapM (resolve find)).map (List.map (renumber f)) :=
  mapM_eq_map fun rule hrule => resolve_eq_map (List.forall_mem_flatMap.mp h rule hrule)

end Resolve

namespace Topology

variable {find later : EntryId → Except TopologyError StampId} {f : StampId → StampId}

/-- An object whose ids come to stand for changed numbers becomes the changed stamp. -/
theorem Object.resolve_eq_map {object : Object} (h : ∀ id ∈ object.references, later id = (find id).map f) :
    object.resolve later = (object.resolve find).map (Stamp.renumber f) := by
  cases object with
  | node s =>
    rw [Object.resolve, Object.resolve, Node.resolve, Node.resolve, resolve?_eq_map h]
    cases resolve? find s.routeDomain <;> rfl
  | pool s =>
    have hmember : ∀ member ∈ s.members, member.resolve later = (member.resolve find).map (Member.renumber f) := by
      intro member hmember
      have hnode := List.forall_mem_flatMap.mp h member hmember member.node (List.mem_singleton_self _)
      rw [Member.resolve, Member.resolve, hnode]
      cases find member.node <;> rfl
    rw [Object.resolve, Object.resolve, Pool.resolve, Pool.resolve, mapM_eq_map hmember]
    cases s.members.mapM fun member => member.resolve find <;> rfl
  | virtualServer s =>
    simp only [references, VirtualServer.references, List.forall_mem_append] at h
    obtain ⟨⟨⟨hprofiles, hrules⟩, hpool⟩, hdomain⟩ := h
    rw [Object.resolve, Object.resolve, VirtualServer.resolve, VirtualServer.resolve, mapM_eq_map hprofiles,
      AttachedRule.mapM_resolve_eq_map hrules, resolve?_eq_map hpool, resolve?_eq_map hdomain]
    cases s.profiles.mapM find with
    | error e => rfl
    | ok profiles =>
      cases s.rules.mapM fun rule => rule.resolve find with
      | error e => rfl
      | ok rules =>
        cases resolve? find s.pool with
        | error e => rfl
        | ok pool => cases resolve? find s.routeDomain <;> rfl
  | selfIp s =>
    simp only [references, List.forall_mem_append, List.forall_mem_cons] at h
    obtain ⟨⟨hvlan, hrules⟩, hdomain⟩ := h
    rw [Object.resolve, Object.resolve, SelfIpEntry.resolve, SelfIpEntry.resolve, hvlan,
      AttachedRule.mapM_resolve_eq_map hrules, resolve?_eq_map hdomain]
    cases readSubnet s.address with
    | error e => rfl
    | ok address =>
      cases find s.vlan with
      | error e => rfl
      | ok vlan =>
        cases s.rules.mapM fun rule => rule.resolve find with
        | error e => rfl
        | ok rules => cases resolve? find s.routeDomain <;> rfl
  | ruleList s =>
    have hrules := mapM_eq_map fun rule hrule =>
      Rule.resolve_eq_map (List.forall_mem_flatMap.mp h rule hrule)
    rw [Object.resolve, Object.resolve, RuleList.resolve, RuleList.resolve, hrules]
    cases s.rules.mapM fun rule => rule.resolve find <;> rfl
  | firewall s =>
    rw [Object.resolve, Object.resolve, Firewall.resolve, Firewall.resolve, AttachedRule.mapM_resolve_eq_map h]
    cases s.rules.mapM fun rule => rule.resolve find <;> rfl
  | raw text key =>
    simp only [Object.resolve]
    cases readDocument text <;> rfl
  | platform s =>
    simp only [Object.resolve]
    cases s.resolve <;> rfl
  | vlan s =>
    simp only [Object.resolve]
    split <;> rfl
  | _ => rfl

/-- Only what the ids of an object stand for matters to what it becomes. -/
theorem Object.resolve_congr {object : Object} (h : ∀ id ∈ object.references, later id = find id) :
    object.resolve later = object.resolve find := by
  have hmap {α : Type} (x : Except TopologyError α) {g : α → α} (hg : ∀ a, g a = a) : x.map g = x := by
    cases x with
    | error e => rfl
    | ok a => exact congrArg Except.ok (hg a)
  have hlater : ∀ id ∈ object.references, later id = (find id).map fun number => number :=
    fun id hid => (h id hid).trans (hmap (find id) fun _ => rfl).symm
  rw [resolve_eq_map hlater, hmap]
  exact fun stamp => Stamp.renumber_eq_self fun _ _ => rfl

end Topology

end ApplianceConfig
