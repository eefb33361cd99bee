import ApplianceConfig.Compile.Recipe

/-!
# Firewall objects

Lists of addresses and ports, lists of rules, and the rule sets of the device. BIG-IP has them from 11.3.0 on, in the modern dialect only.
-/

namespace ApplianceConfig

/-- Whether the device knows firewall objects. -/
def Scope.hasFirewall (scope : Scope) : Bool := scope.context.atLeast .bigip 11 3 0

/-- The set of the keys that stamps of a kind are referred to by. -/
def keySet {rank : Nat} (ids : List StampId) (kind : Kind) (lower : kind.rank < rank) :
    Recipe rank Value := do
  return .set (← ids.mapM fun id => Recipe.key id kind lower)

namespace RuleMatch

/-- The entry of a part of a side, unless the part is empty. -/
def part {rank : Nat} {α : Type} (name : String) (items : List α)
    (value : Recipe rank Value) : Recipe rank Entries :=
  if items.isEmpty then return [] else return [(name, ← value)]

def entries {rank : Nat} (side : RuleMatch) (low : 0 < rank) : Recipe rank Entries := do
  let addressLists ← part "address-lists" side.addressLists
    (keySet side.addressLists .addressList low)
  let addresses ← part "addresses" side.addresses
    (pure (.block (emptyObjects side.addresses)))
  let portLists ← part "port-lists" side.portLists (keySet side.portLists .portList low)
  let ports ← part "ports" side.ports (pure (.block (emptyObjects side.ports)))
  let vlans ← part "vlans" side.vlans (keySet side.vlans .vlan low)
  return addressLists ++ addresses ++ portLists ++ ports ++ vlans

end RuleMatch

namespace Rule

def side {rank : Nat} (name : String) (side : RuleMatch) (low : 0 < rank) :
    Recipe rank Entries := do
  if side.isEmpty then return []
  return [(name, .block (← side.entries low))]

def body {rank : Nat} (rule : Rule) (low : 0 < rank) : Recipe rank Value := do
  let protocol := rule.ipProtocol.toList.map fun p => ("ip-protocol", Value.text p)
  let destination ← side "destination" rule.destination low
  let source ← side "source" rule.source low
  return .block ([("action", .text rule.action)] ++ protocol ++ destination ++ source)

end Rule

namespace AttachedRule

/-- The entry of an attached rule: a rule under its own name, or the key of a list under the list's name. -/
def entry {rank : Nat} (rule : AttachedRule) (scope : Scope) (low : 1 < rank) :
    Recipe rank (String × Value) := do
  match rule with
  | .inline rule => return (rule.name, ← rule.body (Nat.lt_of_succ_lt low))
  | .list id =>
    match ← scope.stamp id with
    | .ruleList rules =>
      let key ← Recipe.key id .ruleList low
      return (rules.name, .block [("rule-list", .text key)])
    | other => .fail (.unexpectedKind .ruleList other.kind)

/-- The block of attached rules. Of several entries with one name only the last is kept, in the place of the first. -/
def block {rank : Nat} (rules : List AttachedRule) (scope : Scope) (low : 1 < rank) :
    Recipe rank Value := do
  return .block (Assoc.putAll [] (← rules.mapM fun rule => rule.entry scope low))

end AttachedRule

namespace AddressList

def modern (list : AddressList) (scope : Scope) (template : Document) :
    Except CompileError Output := do
  if !scope.hasFirewall then return {}
  let key := scope.path list.name
  let template ← scope.fillAs template ["security", "firewall", "address-list", "$key"] key
    (Assoc.put · "addresses" (.block (emptyObjects list.addresses)))
  return { key, value := template }

end AddressList

namespace PortList

def modern (list : PortList) (scope : Scope) (template : Document) :
    Except CompileError Output := do
  if !scope.hasFirewall then return {}
  let key := scope.path list.name
  let template ← scope.fillAs template ["security", "firewall", "port-list", "$key"] key
    (Assoc.put · "ports" (.block (emptyObjects list.ports)))
  return { key, value := template }

end PortList

namespace RuleList

def modern (list : RuleList) (scope : Scope) (template : Document) : Recipe 1 Output := do
  if !scope.hasFirewall then return {}
  let key := scope.path list.name
  let rules ← list.rules.mapM fun rule => return (rule.name, ← rule.body Nat.one_pos)
  let template ← scope.fillAs template ["security", "firewall", "rule-list", "$key"] key
    (Assoc.put · "rules" (.block (Assoc.putAll [] rules)))
  return { key, value := template }

end RuleList

namespace Firewall

def modern (firewall : Firewall) (scope : Scope) (template : Document) : Recipe 2 Output := do
  if !scope.hasFirewall then return {}
  let rules ← AttachedRule.block firewall.rules scope Nat.one_lt_two
  let template ← scope.fillAs template ["security", "firewall", "$context"]
    firewall.context.blockName (Assoc.put · "rules" rules)
  return { value := template }

end Firewall

end ApplianceConfig
