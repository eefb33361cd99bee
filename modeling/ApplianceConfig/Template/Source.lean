import ApplianceConfig.Context
import ApplianceConfig.Kind

/-!
# Template sources

For most kinds and dialects there is a text in the dialect's own spelling that shows the shape of the object: what is fixed stands there as it is, and a word with a dollar sign stands for a name that is filled in. A kind without a text has nothing to fill in.
-/

namespace ApplianceConfig.Template

/-- The lines of a brace block. -/
def block (heading : String) (body : List String) : List String :=
  (heading ++ " \x7b") :: body.map ("    " ++ ·) ++ ["\x7d"]

def empty (heading : String) : String := heading ++ " \x7b\x7d"

def markerFolder : List String :=
  block "sys folder $key" [
    "inherited-devicegroup true",
    "inherited-traffic-group true",
    "traffic-group /Common/traffic-group-1"]

/-- The services that modern devices open by default. -/
def defaultServices : List String := [
  "ospf:any", "tcp:161", "tcp:22", "tcp:4353", "tcp:443", "tcp:53",
  "udp:1026", "udp:161", "udp:4353", "udp:520", "udp:53"]

def modernLines : Kind → List String
  | .partition =>
    block "auth partition $name" ["description none"] ++ markerFolder ++
      block "cli admin-partitions" ["update-partition $name"]
  | .folder => markerFolder
  | .node => [empty "ltm node $key"]
  | .pool => block "ltm pool $key" [empty "members", "monitor none"]
  | .virtualServer =>
    block "ltm virtual $key" [
      "destination none", empty "profiles", empty "fw-rules", "snat automap",
      "ip-protocol tcp", "pool none"] ++ [empty "ltm virtual-address $key_va"]
  | .selfIp =>
    block "net self $key"
      (["address none"] ++ block "allow-service" ["default"] ++ [empty "fw-rules", "vlan none"])
  | .trunk => block "net trunk $name" ["lacp disabled", empty "interfaces"]
  | .vlan => block "net vlan $name" ["partition Common", empty "interfaces"]
  | .routeDomain =>
    block "net route-domain $name" [
      "description \"Default Route Domain\"", "id 0", "partition Common", empty "fw-rules",
      empty "vlans"]
  | .provision => block "sys provision $name" ["level none"]
  | .defaults =>
    block "sys httpd" ["auth-pam-idle-timeout 21600"] ++
      block "net self-allow" (block "defaults" defaultServices)
  | .platform =>
    [empty "sys management-ip $ip/$netmask"] ++
      block "sys management-route default" ["gateway none"] ++
      block "sys db dhclient.mgmt" ["value disable"] ++
      block "sys global-settings" ["mgmt-dhcp disabled", "gui-setup disabled", "hostname none"]
  | .dns => block "sys dns" [empty "name-servers", empty "search"]
  | .ntp => block "sys ntp" [empty "servers", "timezone none"]
  | .mail =>
    block "sys smtp-server $key" [
      "from-address nobody@f5net.com", "local-host-name test.net",
      "smtp-server-host-name none", "smtp-server-port 25"]
  | .user =>
    block "auth user $name" [
      "encrypted-password none", "description none", "shell none", "role admin",
      "partition-access all"]
  | .addressList => block "security firewall address-list $key" [empty "addresses"]
  | .portList => block "security firewall port-list $key" [empty "ports"]
  | .ruleList => block "security firewall rule-list $key" [empty "rules"]
  | .firewall => block "security firewall $context" [empty "rules"]
  | .raw | .profile => []

def legacyLines : Kind → List String
  | .partition => block "partition $name" ["description none"] ++ ["shell write partition $name"]
  | .node => block "node $address" ["screen none"]
  | .pool => block "pool $name" ["members"]
  | .virtualServer => block "virtual $name" ["destination none", "snat automap", "pool none"]
  | .selfIp => block "self $address" ["netmask none", "vlan none", "allow default"]
  | .vlan => block "vlan $name" [empty "interfaces"]
  | .provision => block "provision $name" ["level none"]
  | .defaults => [empty "stp", empty "self allow"]
  | .platform =>
    block "mgmt $ip" ["netmask none"] ++
      block "mgmt route default inet" ["gateway none"] ++
      block "system" ["hostname none"]
  | .dns => block "dns" ["nameservers", "search"]
  | .ntp => block "ntp" ["servers none", "timezone none"]
  | .user => block "user $name" ["description a", "shell \"/bin/false\""]
  | _ => []

/-- The text for a kind in a dialect, if there is one. -/
def source? (kind : Kind) (dialect : Dialect) : Option String :=
  let lines := match dialect with
    | .modern => modernLines kind
    | .legacy => legacyLines kind
  if lines.isEmpty then none else some (String.join (lines.map (· ++ "\n")))

/-- The kinds and dialects that have a text, by kind and with the modern dialect first. -/
def registered : List (Kind × Dialect) :=
  (Kind.all.flatMap fun kind => Dialect.all.map (kind, ·)).filter fun (kind, dialect) =>
    (source? kind dialect).isSome

end ApplianceConfig.Template
