import ApplianceConfig.Document.Basic
import ApplianceConfig.Kind
import ApplianceConfig.Network.Subnet
import ApplianceConfig.Stamp.Rule

/-!
# Stamps

The objects that are hooked onto folders, each with the settings of its kind. Settings that a description leaves out have the defaults given here. Stamps in a tree refer to each other by number; settings that a description spells out by name have the same types with names for references.
-/

namespace ApplianceConfig

/-- The marker of a partition. Without a description of its own it is described by its index. -/
structure Partition where
  description : Option String := none
  deriving Repr

/-- A document that is emitted as it is. -/
structure RawObject where
  key : Option String := none
  document : Document
  deriving Repr

structure Node (ref : Type := StampId) where
  address : String
  name : String := address
  routeDomain : Option ref := none
  monitors : List String := []
  deriving Repr

structure Member (ref : Type := StampId) where
  node : ref
  port : UInt16
  monitors : List String := []
  deriving Repr

structure Pool (ref : Type := StampId) where
  name : String
  members : List (Member ref) := []
  monitors : List String := []
  deriving Repr

structure VirtualServer (ref : Type := StampId) where
  name : String
  address : String
  port : UInt16
  pool : Option ref := none
  profiles : List ref := []
  rules : List (AttachedRule ref) := []
  routeDomain : Option ref := none
  deriving Repr

/-- The side of the connection that a profile applies to. -/
inductive ProfileContext
  | all
  | clientSide
  | serverSide
  deriving DecidableEq, Repr

def ProfileContext.name : ProfileContext → String
  | .all => "all"
  | .clientSide => "clientside"
  | .serverSide => "serverside"

/-- A traffic profile that ships with the device. It is referred to and never written. -/
structure Profile where
  name : String
  context : ProfileContext := .all
  deriving Repr

/-- The name of a self IP that has none: its address and length around an underscore. -/
def SelfIp.defaultName (address : Subnet) : String :=
  address.render.map fun c => if c = '/' then '_' else c

structure SelfIp where
  address : Subnet
  vlan : StampId
  name : String := SelfIp.defaultName address
  allow : List String := ["default"]
  rules : List AttachedRule := []
  routeDomain : Option StampId := none

structure Trunk where
  name : String
  interfaces : List String := []
  lacp : Bool := false
  deriving Repr

structure Vlan where
  name : String
  untagged : List String := []
  tagged : List String := []
  tag : Option UInt16 := none
  deriving Repr

structure RouteDomain where
  id : UInt32
  name : String := toString id
  vlans : List StampId := []
  parent : Option String := none
  rules : List AttachedRule := []
  deriving Repr

structure Provision where
  module : String
  level : String := "nominal"
  deriving Repr

/-- The host name of a device that has none: its management address, with dashes for points and colons, in the domain of the laboratory. -/
def Platform.defaultHostname (address : Subnet) : String :=
  "ip-" ++ (address.address.render.map fun c => if c = '.' ∨ c = ':' then '-' else c) ++
    ".mgmt.pdsea.f5net.com"

structure Platform where
  address : Subnet
  gateway : Address
  hostname : String := Platform.defaultHostname address
  dhcp : Bool := false
  wizard : Bool := false

structure Dns where
  servers : List String := []
  suffixes : List String := []
  deriving Repr

structure Ntp where
  servers : List String := []
  timezone : Option String := none
  deriving Repr

structure Mail where
  server : String
  port : UInt16 := 25
  originator : String := "nobody@f5net.com"
  deriving Repr

structure User where
  name : String
  password : String := name
  role : String := "admin"
  deriving Repr

structure AddressList where
  name : String
  addresses : List String := []
  deriving Repr

structure PortList where
  name : String
  ports : List String := []
  deriving Repr

structure RuleList (ref : Type := StampId) where
  name : String
  rules : List (Rule ref) := []
  deriving Repr

/-- The rule set of the device that a firewall fills. -/
inductive FirewallContext
  | global
  | managementIp
  deriving DecidableEq, Repr

def FirewallContext.blockName : FirewallContext → String
  | .global => "global-rules"
  | .managementIp => "management-ip-rules"

structure Firewall (ref : Type := StampId) where
  context : FirewallContext := .global
  rules : List (AttachedRule ref) := []
  deriving Repr

/-! ### Looking references up -/

section Resolve

variable {α β ε : Type}

def Node.resolve (find : α → Except ε β) (node : Node α) : Except ε (Node β) := do
  let routeDomain ← resolve? find node.routeDomain
  return { address := node.address, name := node.name, routeDomain, monitors := node.monitors }

def Member.resolve (find : α → Except ε β) (member : Member α) : Except ε (Member β) := do
  let node ← find member.node
  return { node, port := member.port, monitors := member.monitors }

def Pool.resolve (find : α → Except ε β) (pool : Pool α) : Except ε (Pool β) := do
  let members ← pool.members.mapM fun member => member.resolve find
  return { name := pool.name, members, monitors := pool.monitors }

def VirtualServer.resolve (find : α → Except ε β) (server : VirtualServer α) :
    Except ε (VirtualServer β) := do
  let profiles ← server.profiles.mapM find
  let rules ← server.rules.mapM fun rule => rule.resolve find
  let pool ← resolve? find server.pool
  let routeDomain ← resolve? find server.routeDomain
  return {
    name := server.name, address := server.address, port := server.port
    pool, profiles, rules, routeDomain }

def RuleList.resolve (find : α → Except ε β) (list : RuleList α) : Except ε (RuleList β) := do
  let rules ← list.rules.mapM fun rule => rule.resolve find
  return { name := list.name, rules }

def Firewall.resolve (find : α → Except ε β) (firewall : Firewall α) :
    Except ε (Firewall β) := do
  let rules ← firewall.rules.mapM fun rule => rule.resolve find
  return { context := firewall.context, rules }

end Resolve

inductive Stamp
  | partition (settings : Partition)
  | folder
  | raw (object : RawObject)
  | node (settings : Node)
  | pool (settings : Pool)
  | virtualServer (settings : VirtualServer)
  | profile (settings : Profile)
  | selfIp (settings : SelfIp)
  | trunk (settings : Trunk)
  | vlan (settings : Vlan)
  | routeDomain (settings : RouteDomain)
  | provision (settings : Provision)
  | defaults
  | platform (settings : Platform)
  | dns (settings : Dns)
  | ntp (settings : Ntp)
  | mail (settings : Mail)
  | user (settings : User)
  | addressList (settings : AddressList)
  | portList (settings : PortList)
  | ruleList (settings : RuleList)
  | firewall (settings : Firewall)

namespace Stamp

def kind : Stamp → Kind
  | .partition _ => .partition
  | .folder => .folder
  | .raw _ => .raw
  | .node _ => .node
  | .pool _ => .pool
  | .virtualServer _ => .virtualServer
  | .profile _ => .profile
  | .selfIp _ => .selfIp
  | .trunk _ => .trunk
  | .vlan _ => .vlan
  | .routeDomain _ => .routeDomain
  | .provision _ => .provision
  | .defaults => .defaults
  | .platform _ => .platform
  | .dns _ => .dns
  | .ntp _ => .ntp
  | .mail _ => .mail
  | .user _ => .user
  | .addressList _ => .addressList
  | .portList _ => .portList
  | .ruleList _ => .ruleList
  | .firewall _ => .firewall

/-- Holds of stamps that exist only to be referred to. -/
def builtIn : Stamp → Bool
  | .profile _ => true
  | _ => false

end Stamp

end ApplianceConfig
