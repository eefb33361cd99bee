import ApplianceConfig.Toml.Reader
import ApplianceConfig.Topology.Basic

/-!
# Topology descriptions in TOML

A description is a TOML table. Keys without a meaning are refused everywhere but in the table of an entry, which may have any. Members, rules and matches are records: they are written as tables, or as arrays that hold the values in a fixed order.
-/

namespace ApplianceConfig.Topology

/-- A reading of a TOML value, which fails when the value has another shape. -/
abbrev Decoder (α : Type) := Toml.Value → Option α

section Decoders

variable {α : Type}

/-! ### Values -/

def text? : Decoder String
  | .text s => some s
  | _ => none

def flag? : Decoder Bool
  | .bool b => some b
  | _ => none

/-- A whole number that is not negative. -/
def count? : Decoder Nat
  | .int n => if 0 ≤ n then some n.toNatClampNeg else none
  | _ => none

def port? : Decoder UInt16 := fun v => do
  let n ← count? v
  if n < UInt16.size then some (UInt16.ofNat n) else none

def list? (item? : Decoder α) : Decoder (List α)
  | .array items => items.mapM item?
  | _ => none

def texts? : Decoder (List String) := list? text?

/-- One of some names, alone or as the key of an empty table. -/
def choice? (choices : List (String × α)) : Decoder α
  | .text name | .table [(name, .table [])] => Assoc.get? choices name
  | _ => none

/-! ### Fields -/

def required (table : Toml.Table) (key : String) (value? : Decoder α) : Option α :=
  (Assoc.get? table key).bind value?

/-- A field that may be missing, but must not be of another shape. -/
def optional (table : Toml.Table) (key : String) (value? : Decoder α) : Option (Option α) :=
  match Assoc.get? table key with
  | none => some none
  | some v => (value? v).map some

/-- A field with a value for the case that it is missing. -/
def field (table : Toml.Table) (key : String) (value? : Decoder α) (default : α) : Option α :=
  (optional table key value?).map (·.getD default)

/-- Refuses keys that are not among the given ones. -/
def knowing (keys : List String) (table : Toml.Table) : Option Toml.Table :=
  if (Assoc.keys table).all keys.contains then some table else none

/-- A record as a table. An array stands for the first of the given keys, at least for the first `least`. -/
def record? (least : Nat) (keys : List String) : Decoder Toml.Table
  | .table table => knowing keys table
  | .array items =>
    if least ≤ items.length ∧ items.length ≤ keys.length then some (keys.zip items) else none
  | _ => none

end Decoders

/-! ### Rules -/

def match? : Decoder (RuleMatch EntryId) := fun v => do
  let t ← record? 0 ["address_lists", "addresses", "port_lists", "ports", "vlans"] v
  return {
    addressLists := ← field t "address_lists" texts? []
    addresses := ← field t "addresses" texts? []
    portLists := ← field t "port_lists" texts? []
    ports := ← field t "ports" texts? []
    vlans := ← field t "vlans" texts? [] }

def rule? : Decoder (Rule EntryId) := fun v => do
  let t ← record? 3 ["name", "action", "ip_protocol", "source", "destination"] v
  let rule : Rule EntryId := { name := ← required t "name" text? }
  return { rule with
    action := ← field t "action" text? rule.action
    ipProtocol := ← optional t "ip_protocol" text?
    source := ← field t "source" match? rule.source
    destination := ← field t "destination" match? rule.destination }

/-- A table with a text under `list` names a rule list, whatever else it holds; all else is a rule. -/
def attachedRule? : Decoder (AttachedRule EntryId) := fun v =>
  let list := match v with
    | .table t => required t "list" text?
    | _ => none
  match list with
  | some id => some (.list id)
  | none => (rule? v).map .inline

def attachedRules? (t : Toml.Table) : Option (List (AttachedRule EntryId)) :=
  field t "rules" (list? attachedRule?) []

/-! ### Objects -/

def member? : Decoder (Member EntryId) := fun v => do
  let t ← record? 2 ["node", "port", "monitors"] v
  return {
    node := ← required t "node" text?
    port := ← required t "port" port?
    monitors := ← field t "monitors" texts? [] }

def node? (t : Toml.Table) : Option (Node EntryId) := do
  let node : Node EntryId := { address := ← required t "address" text? }
  return { node with
    name := ← field t "name" text? node.name
    routeDomain := ← optional t "route_domain" text?
    monitors := ← field t "monitors" texts? [] }

def pool? (t : Toml.Table) : Option (Pool EntryId) := do
  return {
    name := ← required t "name" text?
    members := ← field t "members" (list? member?) []
    monitors := ← field t "monitors" texts? [] }

def virtualServer? (t : Toml.Table) : Option (VirtualServer EntryId) := do
  return {
    name := ← required t "name" text?
    address := ← required t "address" text?
    port := ← required t "port" port?
    pool := ← optional t "pool" text?
    profiles := ← field t "profiles" texts? []
    rules := ← attachedRules? t
    routeDomain := ← optional t "route_domain" text? }

def profile? (t : Toml.Table) : Option Profile := do
  let contexts := [ProfileContext.all, .clientSide, .serverSide].map fun c => (c.name, c)
  let profile : Profile := { name := ← required t "name" text? }
  return { profile with context := ← field t "context" (choice? contexts) profile.context }

def selfIp? (t : Toml.Table) : Option SelfIpEntry := do
  return {
    address := ← required t "address" text?
    vlan := ← required t "vlan" text?
    name := ← optional t "name" text?
    allow := ← field t "allow" texts? []
    rules := ← attachedRules? t
    routeDomain := ← optional t "route_domain" text? }

def trunk? (t : Toml.Table) : Option Trunk := do
  return {
    name := ← required t "name" text?
    interfaces := ← field t "interfaces" texts? []
    lacp := ← field t "lacp" flag? false }

def vlan? (t : Toml.Table) : Option Vlan := do
  return {
    name := ← required t "name" text?
    untagged := ← field t "untagged" texts? []
    tagged := ← field t "tagged" texts? []
    tag := ← optional t "tag" port? }

def provision? (t : Toml.Table) : Option Provision := do
  let provision : Provision := { module := ← required t "module" text? }
  return { provision with level := ← field t "level" text? provision.level }

def platform? (t : Toml.Table) : Option PlatformEntry := do
  return {
    address := ← required t "address" text?
    gateway := ← required t "gateway" text?
    hostname := ← optional t "hostname" text?
    dhcp := ← field t "dhcp" flag? false
    wizard := ← field t "wizard" flag? false }

def dns? (t : Toml.Table) : Option Dns := do
  return { servers := ← required t "servers" texts?, suffixes := ← field t "suffixes" texts? [] }

def ntp? (t : Toml.Table) : Option Ntp := do
  return { servers := ← required t "servers" texts?, timezone := ← optional t "timezone" text? }

def mail? (t : Toml.Table) : Option Mail := do
  let mail : Mail := { server := ← required t "server" text? }
  return { mail with
    port := ← field t "port" port? mail.port
    originator := ← field t "originator" text? mail.originator }

def user? (t : Toml.Table) : Option User := do
  let user : User := { name := ← required t "name" text? }
  return { user with
    password := ← field t "password" text? user.password
    role := ← field t "role" text? user.role }

def addressList? (t : Toml.Table) : Option AddressList := do
  return { name := ← required t "name" text?, addresses := ← required t "addresses" texts? }

def portList? (t : Toml.Table) : Option PortList := do
  return { name := ← required t "name" text?, ports := ← required t "ports" texts? }

def ruleList? (t : Toml.Table) : Option (RuleList EntryId) := do
  return { name := ← required t "name" text?, rules := ← field t "rules" (list? rule?) [] }

def firewall? (t : Toml.Table) : Option (Firewall EntryId) := do
  let contexts := [("global", FirewallContext.global), ("management-ip", .managementIp)]
  let firewall : Firewall EntryId := {}
  return {
    context := ← field t "context" (choice? contexts) firewall.context
    rules := ← attachedRules? t }

/-- The object of a kind that a table describes. -/
def object? (t : Toml.Table) : Kind → Option Object
  | .raw => do return .raw (← required t "text" text?) (← optional t "key" text?)
  | .node => (node? t).map .node
  | .pool => (pool? t).map .pool
  | .virtualServer => (virtualServer? t).map .virtualServer
  | .profile => (profile? t).map .profile
  | .selfIp => (selfIp? t).map .selfIp
  | .trunk => (trunk? t).map .trunk
  | .vlan => (vlan? t).map .vlan
  | .provision => (provision? t).map .provision
  | .defaults => some .defaults
  | .platform => (platform? t).map .platform
  | .dns => (dns? t).map .dns
  | .ntp => (ntp? t).map .ntp
  | .mail => (mail? t).map .mail
  | .user => (user? t).map .user
  | .addressList => (addressList? t).map .addressList
  | .portList => (portList? t).map .portList
  | .ruleList => (ruleList? t).map .ruleList
  | .firewall => (firewall? t).map .firewall
  | .partition | .folder | .routeDomain => none

/-! ### Descriptions -/

def entry? : Decoder Entry
  | .table t => do
    let kind ← Kind.ofName? (← required t "kind" text?)
    return {
      folder := ← field t "folder" text? commonPartition
      id := ← optional t "id" text?
      object := ← object? t kind }
  | _ => none

/-- The path of a folder: the only field of a table, or the first item of an array. -/
def folderPath? : Decoder String
  | .table t => do required (← knowing ["path"] t) "path" text?
  | .array (path :: _) => text? path
  | _ => none

/-- Features with their switches, in the order of their names. -/
def features? : Decoder (List (String × Bool))
  | .table t => do
    let features ← t.mapM fun (name, v) => (flag? v).map (name, ·)
    return features.mergeSort fun a b => a.1 ≤ b.1
  | _ => none

def Description.ofTable? (table : Toml.Table) : Option Description := do
  let t ← knowing ["version", "partitions", "features", "folder", "stamp"] table
  return {
    version := ← optional t "version" text?
    partitions := ← field t "partitions" count? 0
    features := ← field t "features" features? []
    folders := ← field t "folder" (list? folderPath?) []
    entries := ← field t "stamp" (list? entry?) [] }

/-- The description that a text holds. -/
def Description.parse? (text : String) : Option Description :=
  (Toml.Table.parse? text).bind ofTable?

/-- The topology that a text describes, for the target or else for the version that the text names. -/
def parse (text : String) (target : Option Version) : Except TopologyError Topology :=
  match Description.parse? text with
  | some description => description.load target
  | none => .error .malformed

end ApplianceConfig.Topology
