/-!
# Kinds of stamps

Every object that a configuration can hold is of one of 22 kinds. A kind has a rank: whatever a stamp takes a reference key from is of a kind of lower rank, so references cannot run in circles.
-/

namespace ApplianceConfig

inductive Kind
  | partition
  | folder
  | raw
  | node
  | pool
  | virtualServer
  | profile
  | selfIp
  | trunk
  | vlan
  | routeDomain
  | provision
  | defaults
  | platform
  | dns
  | ntp
  | mail
  | user
  | addressList
  | portList
  | ruleList
  | firewall
  deriving DecidableEq, Repr, Inhabited

namespace Kind

def all : List Kind := [
  .partition, .folder, .raw, .node, .pool, .virtualServer, .profile, .selfIp, .trunk, .vlan,
  .routeDomain, .provision, .defaults, .platform, .dns, .ntp, .mail, .user, .addressList,
  .portList, .ruleList, .firewall]

def name : Kind → String
  | .partition => "partition"
  | .folder => "folder"
  | .raw => "raw"
  | .node => "node"
  | .pool => "pool"
  | .virtualServer => "virtual-server"
  | .profile => "profile"
  | .selfIp => "self-ip"
  | .trunk => "trunk"
  | .vlan => "vlan"
  | .routeDomain => "route-domain"
  | .provision => "provision"
  | .defaults => "defaults"
  | .platform => "platform"
  | .dns => "dns"
  | .ntp => "ntp"
  | .mail => "mail"
  | .user => "user"
  | .addressList => "address-list"
  | .portList => "port-list"
  | .ruleList => "rule-list"
  | .firewall => "firewall"

def ofName? (name : String) : Option Kind := all.find? (Kind.name · == name)

/-- The longest chain of references that can start at a stamp of the kind. -/
def rank : Kind → Nat
  | .pool | .ruleList => 1
  | .virtualServer | .selfIp | .routeDomain | .firewall => 2
  | _ => 0

theorem mem_all (kind : Kind) : kind ∈ all := by cases kind <;> decide

end Kind

end ApplianceConfig
