import ApplianceConfig.Topology.Reader

/-!
# Stamps as objects describe them

An object describes a stamp, with ids in the places of numbers, and with texts in the places of documents and addresses. If each id of an object stands for a number, the stamp that the object becomes is the one that it describes, field by field.
-/

namespace ApplianceConfig

/-! ### Other references -/

section Map

variable {α β : Type} (f : α → β)

def RuleMatch.map (side : RuleMatch α) : RuleMatch β where
  addressLists := side.addressLists.map f
  addresses := side.addresses
  portLists := side.portLists.map f
  ports := side.ports
  vlans := side.vlans.map f

def Rule.map (rule : Rule α) : Rule β where
  name := rule.name
  action := rule.action
  ipProtocol := rule.ipProtocol
  source := rule.source.map f
  destination := rule.destination.map f

def AttachedRule.map : AttachedRule α → AttachedRule β
  | .inline rule => .inline (rule.map f)
  | .list id => .list (f id)

def Node.map (node : Node α) : Node β where
  address := node.address
  name := node.name
  routeDomain := node.routeDomain.map f
  monitors := node.monitors

def Member.map (member : Member α) : Member β where
  node := f member.node
  port := member.port
  monitors := member.monitors

def Pool.map (pool : Pool α) : Pool β where
  name := pool.name
  members := pool.members.map (Member.map f)
  monitors := pool.monitors

def VirtualServer.map (server : VirtualServer α) : VirtualServer β where
  name := server.name
  address := server.address
  port := server.port
  pool := server.pool.map f
  profiles := server.profiles.map f
  rules := server.rules.map (AttachedRule.map f)
  routeDomain := server.routeDomain.map f

def RuleList.map (list : RuleList α) : RuleList β where
  name := list.name
  rules := list.rules.map (Rule.map f)

def Firewall.map (firewall : Firewall α) : Firewall β where
  context := firewall.context
  rules := firewall.rules.map (AttachedRule.map f)

end Map

/-! ### Looking references up -/

section Resolve

variable {α β ε : Type} {find : α → Except ε β} {f : α → β}

theorem mapM_eq_ok {σ τ : Type} {x : σ → Except ε τ} {g : σ → τ} {items : List σ}
    (h : ∀ a ∈ items, x a = .ok (g a)) :
    items.mapM x = .ok (items.map g) := by
  induction items with
  | nil => rfl
  | cons a items ih =>
    obtain ⟨ha, hitems⟩ := List.forall_mem_cons.mp h
    rw [List.mapM_cons, ha, ih hitems]
    rfl

theorem resolve?_eq_ok {item : Option α} (h : ∀ a ∈ item.toList, find a = .ok (f a)) :
    resolve? find item = .ok (item.map f) := by
  cases item with
  | none => rfl
  | some a =>
    rw [resolve?, h a (List.mem_singleton_self a)]
    rfl

theorem RuleMatch.resolve_eq_ok {side : RuleMatch α} (h : ∀ a ∈ side.references, find a = .ok (f a)) :
    side.resolve find = .ok (side.map f) := by
  simp only [references, List.forall_mem_append] at h
  obtain ⟨⟨haddress, hport⟩, hvlan⟩ := h
  rw [resolve, mapM_eq_ok haddress, mapM_eq_ok hport, mapM_eq_ok hvlan]
  rfl

theorem Rule.resolve_eq_ok {rule : Rule α} (h : ∀ a ∈ rule.references, find a = .ok (f a)) :
    rule.resolve find = .ok (rule.map f) := by
  obtain ⟨hsource, hdestination⟩ := List.forall_mem_append.mp h
  rw [resolve, RuleMatch.resolve_eq_ok hsource, RuleMatch.resolve_eq_ok hdestination]
  rfl

theorem AttachedRule.resolve_eq_ok {rule : AttachedRule α} (h : ∀ a ∈ rule.references, find a = .ok (f a)) :
    rule.resolve find = .ok (rule.map f) := by
  cases rule with
  | inline rule =>
    rw [resolve, Rule.resolve_eq_ok h]
    rfl
  | list id =>
    rw [resolve, h id (List.mem_singleton_self id)]
    rfl

theorem AttachedRule.mapM_resolve_eq_ok {rules : List (AttachedRule α)}
    (h : ∀ a ∈ rules.flatMap references, find a = .ok (f a)) :
    rules.mapM (resolve find) = .ok (rules.map (AttachedRule.map f)) :=
  mapM_eq_ok fun rule hrule => resolve_eq_ok (List.forall_mem_flatMap.mp h rule hrule)

theorem Node.resolve_eq_ok {node : Node α} (h : ∀ a ∈ node.references, find a = .ok (f a)) :
    node.resolve find = .ok (node.map f) := by
  rw [resolve, resolve?_eq_ok h]
  rfl

theorem Member.resolve_eq_ok {member : Member α} (h : ∀ a ∈ member.references, find a = .ok (f a)) :
    member.resolve find = .ok (member.map f) := by
  rw [resolve, h member.node (List.mem_singleton_self _)]
  rfl

theorem Pool.resolve_eq_ok {pool : Pool α} (h : ∀ a ∈ pool.references, find a = .ok (f a)) :
    pool.resolve find = .ok (pool.map f) := by
  have hmembers := mapM_eq_ok fun member hmember => Member.resolve_eq_ok (List.forall_mem_flatMap.mp h member hmember)
  rw [resolve, hmembers]
  rfl

theorem VirtualServer.resolve_eq_ok {server : VirtualServer α} (h : ∀ a ∈ server.references, find a = .ok (f a)) :
    server.resolve find = .ok (server.map f) := by
  simp only [references, List.forall_mem_append] at h
  obtain ⟨⟨⟨hprofiles, hrules⟩, hpool⟩, hdomain⟩ := h
  rw [resolve, mapM_eq_ok hprofiles, AttachedRule.mapM_resolve_eq_ok hrules, resolve?_eq_ok hpool,
    resolve?_eq_ok hdomain]
  rfl

theorem RuleList.resolve_eq_ok {list : RuleList α} (h : ∀ a ∈ list.references, find a = .ok (f a)) :
    list.resolve find = .ok (list.map f) := by
  have hrules := mapM_eq_ok fun rule hrule => Rule.resolve_eq_ok (List.forall_mem_flatMap.mp h rule hrule)
  rw [resolve, hrules]
  rfl

theorem Firewall.resolve_eq_ok {firewall : Firewall α} (h : ∀ a ∈ firewall.references, find a = .ok (f a)) :
    firewall.resolve find = .ok (firewall.map f) := by
  rw [resolve, AttachedRule.mapM_resolve_eq_ok h]
  rfl

end Resolve

namespace Topology

/-! ### Objects -/

/-- The kind of the stamps that an object describes. -/
def Object.kind : Object → Kind
  | .raw .. => .raw
  | .node _ => .node
  | .pool _ => .pool
  | .virtualServer _ => .virtualServer
  | .profile _ => .profile
  | .selfIp _ => .selfIp
  | .trunk _ => .trunk
  | .vlan _ => .vlan
  | .provision _ => .provision
  | .defaults => .defaults
  | .platform _ => .platform
  | .dns _ => .dns
  | .ntp _ => .ntp
  | .mail _ => .mail
  | .user _ => .user
  | .addressList _ => .addressList
  | .portList _ => .portList
  | .ruleList _ => .ruleList
  | .firewall _ => .firewall

/-- The self IP of an entry, once its address is read and its references have numbers. -/
def SelfIpEntry.numbered (entry : SelfIpEntry) (address : Subnet) (number : EntryId → StampId) : SelfIp where
  address := address
  vlan := number entry.vlan
  name := entry.name.getD (SelfIp.defaultName address)
  allow := if entry.allow.isEmpty then ["default"] else entry.allow
  rules := entry.rules.map (AttachedRule.map number)
  routeDomain := entry.routeDomain.map number

/-- A stamp has what an object describes, with a number for each id. -/
inductive Object.Describes (number : EntryId → StampId) : Object → Stamp → Prop
  | raw {text : String} {document : Document} (key : Option String) (htext : Document.parse text = .ok document) :
    Describes number (.raw text key) (.raw { key, document })
  | node (s : Node EntryId) : Describes number (.node s) (.node (s.map number))
  | pool (s : Pool EntryId) : Describes number (.pool s) (.pool (s.map number))
  | virtualServer (s : VirtualServer EntryId) : Describes number (.virtualServer s) (.virtualServer (s.map number))
  | profile (s : Profile) : Describes number (.profile s) (.profile s)
  | selfIp {s : SelfIpEntry} {address : Subnet} (haddress : readSubnet s.address = .ok address) :
    Describes number (.selfIp s) (.selfIp (s.numbered address number))
  | trunk (s : Trunk) : Describes number (.trunk s) (.trunk s)
  | vlan (s : Vlan) : Describes number (.vlan s) (.vlan s)
  | provision (s : Provision) : Describes number (.provision s) (.provision s)
  | defaults : Describes number .defaults .defaults
  | platform {s : PlatformEntry} {address : Subnet} {gateway : Address} (haddress : readSubnet s.address = .ok address)
    (hgateway : readAddress s.gateway = .ok gateway) :
    Describes number (.platform s) (.platform {
      address, gateway, hostname := s.hostname.getD (Platform.defaultHostname address), dhcp := s.dhcp
      wizard := s.wizard })
  | dns (s : Dns) : Describes number (.dns s) (.dns s)
  | ntp (s : Ntp) : Describes number (.ntp s) (.ntp s)
  | mail (s : Mail) : Describes number (.mail s) (.mail s)
  | user (s : User) : Describes number (.user s) (.user s)
  | addressList (s : AddressList) : Describes number (.addressList s) (.addressList s)
  | portList (s : PortList) : Describes number (.portList s) (.portList s)
  | ruleList (s : RuleList EntryId) : Describes number (.ruleList s) (.ruleList (s.map number))
  | firewall (s : Firewall EntryId) : Describes number (.firewall s) (.firewall (s.map number))

theorem Object.Describes.kind_eq {number : EntryId → StampId} {object : Object} {stamp : Stamp}
    (h : object.Describes number stamp) : stamp.kind = object.kind := by
  cases h <;> rfl

section Describes

variable {find : EntryId → Except TopologyError StampId} {number : EntryId → StampId}

theorem SelfIpEntry.exists_of_resolve {entry : SelfIpEntry} {selfIp : SelfIp}
    (hfind : ∀ id ∈ (Object.selfIp entry).references, find id = .ok (number id)) (h : entry.resolve find = .ok selfIp) :
    ∃ address, readSubnet entry.address = .ok address ∧ selfIp = entry.numbered address number := by
  simp only [Object.references, List.forall_mem_append, List.forall_mem_cons] at hfind
  obtain ⟨⟨hvlan, hrules⟩, hdomain⟩ := hfind
  obtain ⟨address, haddress, h⟩ := bind_eq_ok h
  rw [hvlan, AttachedRule.mapM_resolve_eq_ok hrules, resolve?_eq_ok hdomain] at h
  cases h
  exact ⟨address, haddress, rfl⟩

/-- An object becomes the stamp that it describes. -/
theorem Object.describes_of_resolve {object : Object} {stamp : Stamp}
    (hfind : ∀ id ∈ object.references, find id = .ok (number id)) (h : object.resolve find = .ok stamp) :
    object.Describes number stamp := by
  cases object with
  | raw text key =>
    obtain ⟨document, hdocument, h⟩ := bind_eq_ok h
    cases h
    refine .raw key ?_
    unfold readDocument at hdocument
    split at hdocument
    · rename_i doc hparse
      cases hdocument
      exact hparse
    · cases hdocument
  | node s =>
    rw [resolve, Node.resolve_eq_ok hfind] at h
    cases h
    exact .node s
  | pool s =>
    rw [resolve, Pool.resolve_eq_ok hfind] at h
    cases h
    exact .pool s
  | virtualServer s =>
    rw [resolve, VirtualServer.resolve_eq_ok hfind] at h
    cases h
    exact .virtualServer s
  | ruleList s =>
    rw [resolve, RuleList.resolve_eq_ok hfind] at h
    cases h
    exact .ruleList s
  | firewall s =>
    rw [resolve, Firewall.resolve_eq_ok hfind] at h
    cases h
    exact .firewall s
  | selfIp s =>
    obtain ⟨selfIp, hself, h⟩ := bind_eq_ok h
    cases h
    obtain ⟨address, haddress, rfl⟩ := SelfIpEntry.exists_of_resolve hfind hself
    exact .selfIp haddress
  | platform s =>
    obtain ⟨platform, hplatform, h⟩ := bind_eq_ok h
    cases h
    obtain ⟨gateway, hgateway, h⟩ := bind_eq_ok hplatform
    obtain ⟨address, haddress, h⟩ := bind_eq_ok h
    cases h
    exact .platform haddress hgateway
  | vlan s =>
    simp only [resolve] at h
    split at h
    · cases h
    · cases h
      exact .vlan s
  | profile s => cases h; exact .profile s
  | trunk s => cases h; exact .trunk s
  | provision s => cases h; exact .provision s
  | defaults => cases h; exact .defaults
  | dns s => cases h; exact .dns s
  | ntp s => cases h; exact .ntp s
  | mail s => cases h; exact .mail s
  | user s => cases h; exact .user s
  | addressList s => cases h; exact .addressList s
  | portList s => cases h; exact .portList s

end Describes

end Topology

end ApplianceConfig
