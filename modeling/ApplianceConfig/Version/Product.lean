/-!
# Product families

A product family is recognised by the marks that occur in a text, whatever their case. The families are tried in a fixed order, because one text may hold the marks of several.
-/

namespace ApplianceConfig

inductive Product
  | em
  | bigip
  | bigiq
  | wanjet
  | arx
  | sam
  | nsx
  | unknown
  deriving DecidableEq, Repr, Inhabited

namespace Product

def all : List Product := [.em, .bigip, .bigiq, .wanjet, .arx, .sam, .nsx, .unknown]

/-- The name that devices print for themselves. -/
def displayName : Product → String
  | .em => "EM"
  | .bigip => "BIG-IP"
  | .bigiq => "BIG-IQ"
  | .wanjet => "WANJET"
  | .arx => "ARX"
  | .sam => "SAM"
  | .nsx => "NSX"
  | .unknown => ""

/-- The marks of the families, in the order in which they are looked for. -/
def marks : List (Product × List String) := [
  (.em, ["em", "enterprise manager"]),
  (.sam, ["big-ip_sam", "bigip_sam"]),
  (.bigip, ["big-ip", "bigip"]),
  (.bigiq, ["big-iq", "bigiq"]),
  (.wanjet, ["wanjet", "wj"]),
  (.arx, ["arx"]),
  (.nsx, ["nsx"])]

/-- A letter without its case. The long s counts as an s. -/
def foldCase (c : Char) : Char := if c = 'ſ' then 's' else c.toLower

/-- Holds when the characters of `mark` stand somewhere in `text` one after another. -/
def occursIn (mark : List Char) : List Char → Bool
  | [] => mark.isEmpty
  | c :: rest => mark.isPrefixOf (c :: rest) || occursIn mark rest

/-- The family that a text mentions. -/
def detect (text : String) : Product :=
  let folded := text.toList.map foldCase
  match marks.find? fun entry => entry.2.any fun mark => occursIn mark.toList folded with
  | some (product, _) => product
  | none => .unknown

end Product

end ApplianceConfig
