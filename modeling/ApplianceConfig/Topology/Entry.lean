import ApplianceConfig.Stamp.Reference
import ApplianceConfig.Tree.Lookup

/-!
# Topology descriptions

A topology description names the version to configure for, features, folders and the stamps to hook, in order. An entry may give its stamp an id, and later entries refer to the stamp by it. Addresses and raw documents are still texts here.
-/

namespace ApplianceConfig.Topology

/-- The name that an entry gives its stamp. -/
abbrev EntryId := String

/-- A self IP whose address is a text and may lack a length. Without allowed services it has the default ones. -/
structure SelfIpEntry where
  address : String
  vlan : EntryId
  name : Option String := none
  allow : List String := []
  rules : List (AttachedRule EntryId) := []
  routeDomain : Option EntryId := none
  deriving Repr

/-- A device whose addresses are texts. -/
structure PlatformEntry where
  address : String
  gateway : String
  hostname : Option String := none
  dhcp : Bool := false
  wizard : Bool := false
  deriving Repr

/-- What an entry describes. Markers come with their folders, and a route domain has no description: its number and the id of its entry would have one name. -/
inductive Object
  | raw (text : String) (key : Option String)
  | node (settings : Node EntryId)
  | pool (settings : Pool EntryId)
  | virtualServer (settings : VirtualServer EntryId)
  | profile (settings : Profile)
  | selfIp (settings : SelfIpEntry)
  | trunk (settings : Trunk)
  | vlan (settings : Vlan)
  | provision (settings : Provision)
  | defaults
  | platform (settings : PlatformEntry)
  | dns (settings : Dns)
  | ntp (settings : Ntp)
  | mail (settings : Mail)
  | user (settings : User)
  | addressList (settings : AddressList)
  | portList (settings : PortList)
  | ruleList (settings : RuleList EntryId)
  | firewall (settings : Firewall EntryId)
  deriving Repr

/-- The ids that an object refers to, in the order in which they are looked up. -/
def Object.references : Object → List EntryId
  | .node s => s.references
  | .pool s => s.references
  | .virtualServer s => s.references
  | .selfIp s =>
    s.vlan :: s.rules.flatMap AttachedRule.references ++ s.routeDomain.toList
  | .ruleList s => s.references
  | .firewall s => s.references
  | .raw .. | .profile _ | .trunk _ | .vlan _ | .provision _ | .defaults | .platform _ | .dns _
  | .ntp _ | .mail _ | .user _ | .addressList _ | .portList _ => []

structure Entry where
  folder : String := commonPartition
  id : Option EntryId := none
  object : Object
  deriving Repr

structure Description where
  version : Option String := none
  partitions : Nat := 0
  features : List (String × Bool) := []
  folders : List String := []
  entries : List Entry := []
  deriving Repr

end ApplianceConfig.Topology
