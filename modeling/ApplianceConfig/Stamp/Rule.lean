/-!
# Firewall rules

Rules are written where they are used; only lists of rules are stamps of their own. The types are open in what a reference to a stamp is. In a tree it is the stamp's number; in a description it is a name, and looking all names up turns the one into the other. Names are looked up in a fixed order, and the first that fails ends it.
-/

namespace ApplianceConfig

/-- The number of a stamp in its tree. -/
abbrev StampId := Nat

/-- What traffic one side of a rule matches: the stamps of lists, single addresses and ports, and the stamps of VLANs. -/
structure RuleMatch (ref : Type := StampId) where
  addressLists : List ref := []
  addresses : List String := []
  portLists : List ref := []
  ports : List String := []
  vlans : List ref := []
  deriving DecidableEq, Repr, Inhabited

structure Rule (ref : Type := StampId) where
  name : String
  action : String := "accept"
  ipProtocol : Option String := none
  source : RuleMatch ref := {}
  destination : RuleMatch ref := {}
  deriving DecidableEq, Repr, Inhabited

/-- A rule attached to an object, either written out or by its list's stamp. -/
inductive AttachedRule (ref : Type := StampId)
  | inline (rule : Rule ref)
  | list (id : ref)
  deriving DecidableEq, Repr, Inhabited

def RuleMatch.isEmpty {ref : Type} (side : RuleMatch ref) : Bool :=
  side.addressLists.isEmpty && side.addresses.isEmpty && side.portLists.isEmpty &&
    side.ports.isEmpty && side.vlans.isEmpty

/-! ### Looking references up -/

section Resolve

variable {α β ε : Type}

def RuleMatch.resolve (find : α → Except ε β) (side : RuleMatch α) :
    Except ε (RuleMatch β) := do
  let addressLists ← side.addressLists.mapM find
  let portLists ← side.portLists.mapM find
  let vlans ← side.vlans.mapM find
  return { addressLists, addresses := side.addresses, portLists, ports := side.ports, vlans }

def Rule.resolve (find : α → Except ε β) (rule : Rule α) : Except ε (Rule β) := do
  let source ← rule.source.resolve find
  let destination ← rule.destination.resolve find
  return {
    name := rule.name, action := rule.action, ipProtocol := rule.ipProtocol, source, destination }

def AttachedRule.resolve (find : α → Except ε β) : AttachedRule α → Except ε (AttachedRule β)
  | .inline rule => do return .inline (← rule.resolve find)
  | .list id => do return .list (← find id)

/-- Looks up the reference of a setting that may be missing. -/
def resolve? (find : α → Except ε β) : Option α → Except ε (Option β)
  | none => .ok none
  | some a => (find a).map some

end Resolve

end ApplianceConfig
