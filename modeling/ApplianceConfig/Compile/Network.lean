import ApplianceConfig.Compile.Firewall

/-!
# Network objects

Self IPs, trunks, VLANs and route domains.
-/

namespace ApplianceConfig

/-- What stands behind an address in a route domain: a percent sign and the domain's id. -/
def Scope.routeDomainSuffix (scope : Scope) (routeDomain : Option StampId) :
    Except CompileError String := do
  match routeDomain with
  | none => return ""
  | some id =>
    match ← scope.stamp id with
    | .routeDomain domain => return "%" ++ toString domain.id
    | other => throw (.unexpectedKind .routeDomain other.kind)

/-- The entry for attached rules, or none when there are no rules to attach. -/
def attachedRules {rank : Nat} (attach : Bool) (rules : List AttachedRule) (scope : Scope)
    (low : 1 < rank) : Recipe rank (Option Value) := do
  if attach && !rules.isEmpty then return some (← AttachedRule.block rules scope low)
  return none

/-- Writes the entry for attached rules, or takes it out of the template. -/
def putRules (rules : Option Value) (entries : Entries) : Entries :=
  match rules with
  | some block => Assoc.put entries "fw-rules" block
  | none => Assoc.erase entries "fw-rules"

namespace SelfIp

/-- An allowed service in the flat dialect: a protocol with its port, or a bare name. -/
def legacyService (service : String) : String × Value :=
  match service.toList.dropWhile (· ≠ ':') with
  | _ :: port =>
    (String.ofList (service.toList.takeWhile (· ≠ ':')), .text (String.ofList port))
  | [] => (service, .toggle)

def legacyAllow : List String → Value
  | [single] => .text single
  | services => .block (Assoc.putAll [] (services.map legacyService))

/-- From 4.2.0 on, BIG-IQ manages its self IPs by itself. -/
def modern (selfIp : SelfIp) (scope : Scope) (template : Document) : Recipe 2 Output := do
  if scope.context.atLeast .bigiq 4 2 0 then return {}
  let key := scope.path selfIp.name
  let suffix ← scope.routeDomainSuffix selfIp.routeDomain
  let address := selfIp.address.address.render ++ suffix ++ "/" ++ toString selfIp.address.length
  let vlan ← Recipe.key selfIp.vlan .vlan Nat.two_pos
  let rules ← attachedRules true selfIp.rules scope Nat.one_lt_two
  let template ← scope.fillAs template ["net", "self", "$key"] key fun entries =>
    let entries := Assoc.put entries "address" (.text address)
    let entries := Assoc.put entries "allow-service" (.block (toggles selfIp.allow))
    Assoc.put (putRules rules entries) "vlan" (.text vlan)
  return { key, value := template }

def legacy (selfIp : SelfIp) (scope : Scope) (template : Document) : Recipe 2 Output := do
  let key := selfIp.address.address.render
  let vlan ← Recipe.key selfIp.vlan .vlan Nat.two_pos
  let template ← scope.fillAs template ["self", "$address"] key fun entries =>
    let entries := Assoc.put entries "netmask" (.text selfIp.address.netmask.render)
    let entries := Assoc.put entries "vlan" (.text vlan)
    Assoc.put entries "allow" (legacyAllow selfIp.allow)
  return { key, value := template }

end SelfIp

namespace Trunk

def modern (trunk : Trunk) (scope : Scope) (template : Document) :
    Except CompileError Output := do
  let template ← scope.fillAs template ["net", "trunk", "$name"] trunk.name fun entries =>
    let entries :=
      if trunk.interfaces.isEmpty then Assoc.erase entries "interfaces"
      else Assoc.put entries "interfaces" (.block (toggles trunk.interfaces))
    if trunk.lacp then Assoc.put entries "lacp" (.text "enabled") else entries
  return { key := scope.path trunk.name, value := template }

end Trunk

namespace Vlan

def tagValue (vlan : Vlan) : Value :=
  match vlan.tag with
  | some tag => .number tag.toNat
  | none => .absent

def modern (vlan : Vlan) (scope : Scope) (template : Document) : Except CompileError Output := do
  let interfaces := vlan.untagged.map (fun i => (i, Value.set [])) ++
    vlan.tagged.map fun i => (i, Value.set ["tagged"])
  let template ← scope.fillAs template ["net", "vlan", "$name"] vlan.name fun entries =>
    let entries := Assoc.put entries "partition" (.text scope.partitionName)
    let entries :=
      if interfaces.isEmpty then Assoc.erase entries "interfaces"
      else Assoc.put entries "interfaces" (.block (Assoc.putAll [] interfaces))
    let entries := Assoc.put entries "description" (.text vlan.name)
    if vlan.tagged.isEmpty then entries else Assoc.put entries "tag" vlan.tagValue
  return { key := scope.path vlan.name, value := template }

/-- Releases of BIG-IP before 10.0.0 list interfaces without braces. -/
def legacyStyle (version : Version) : Style :=
  if version.product == .bigip && !version.atLeast (.release .bigip 10 0 0) then .bare else .braced

def legacy (vlan : Vlan) (scope : Scope) (template : Document) : Except CompileError Output := do
  let interfaces (names : List String) : Value :=
    .map (legacyStyle scope.context.version) (toggles names)
  let template ← scope.fillAs template ["vlan", "$name"] vlan.name fun entries =>
    let entries :=
      if vlan.untagged.isEmpty then Assoc.erase entries "interfaces"
      else Assoc.put entries "interfaces" (interfaces vlan.untagged)
    if vlan.tagged.isEmpty then entries
    else
      let entries := Assoc.put entries "tag" vlan.tagValue
      Assoc.put entries "interfaces tagged" (interfaces vlan.tagged)
  return { key := vlan.name, value := template }

end Vlan

namespace RouteDomain

def modern (domain : RouteDomain) (scope : Scope) (template : Document) : Recipe 2 Output := do
  let vlans ← domain.vlans.mapM fun id => Recipe.key id .vlan Nat.two_pos
  let rules ← attachedRules (scope.context.feature "afm") domain.rules scope Nat.one_lt_two
  let template ← scope.fillAs template ["net", "route-domain", "$name"] domain.name fun entries =>
    let entries := Assoc.put entries "id" (.number domain.id.toNat)
    let entries := Assoc.put entries "partition" (.text scope.partitionName)
    let entries :=
      if vlans.isEmpty then Assoc.erase entries "vlans"
      else Assoc.put entries "vlans" (.block (toggles vlans))
    let entries :=
      match domain.parent with
      | some parent => Assoc.put entries "parent" (.text parent)
      | none => entries
    putRules rules entries
  return { key := domain.name, value := template }

end RouteDomain

end ApplianceConfig
