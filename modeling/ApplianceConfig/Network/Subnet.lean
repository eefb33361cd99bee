import ApplianceConfig.Network.Address

/-!
# Subnets

An address together with the number of its leading bits that name the network. The address keeps its other bits.
-/

namespace ApplianceConfig

structure Subnet where
  address : Address
  length : Nat
  length_le : length ≤ address.width

namespace Subnet

/-- The rules for addresses in front of a length: decimal numbers may start with zeros, and a double colon may stand for no group at all. -/
def rules : Address.Rules := ⟨true, 0⟩

/-- The subnet that a text is: an address, a slash and a length, which has no more digits than the greatest length. -/
def parse? (text : String) : Option Subnet := do
  let (address, cs) ← Address.front? rules text.toList
  let cs ← Text.expect? '/' cs
  let most := (toString address.width).length
  let (length, rest) ← Address.number? 10 most (address.width + 1) true cs
  if h : length ≤ address.width ∧ rest = [] then some ⟨address, length, h.1⟩ else none

def host (address : Address) : Subnet := ⟨address, address.width, Nat.le_refl _⟩

def render (subnet : Subnet) : String :=
  subnet.address.render ++ "/" ++ toString subnet.length

/-- The address whose set bits are those that name the network. -/
def netmask (subnet : Subnet) : Address :=
  match subnet.address with
  | .v4 _ => .v4 (BitVec.allOnes 32 <<< (32 - subnet.length))
  | .v6 _ => .v6 (BitVec.allOnes 128 <<< (128 - subnet.length))

end Subnet

end ApplianceConfig
