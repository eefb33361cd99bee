import ApplianceConfig.Document.Basic

/-!
# Equality of documents

Two values mean the same when they differ at most in the styles of their mappings and in the order of the items of their sets. The order of a mapping's entries counts, and so does how often an item occurs in a set.
-/

namespace ApplianceConfig

mutual

/-- Equality up to styles and the order within sets. -/
def Value.same : Value → Value → Bool
  | .toggle, .toggle => true
  | .absent, .absent => true
  | .bool a, .bool b => a == b
  | .int a, .int b => a == b
  | .text a, .text b => a == b
  | .raw a, .raw b => a == b
  | .set a, .set b => a.isPerm b
  | .map _ a, .map _ b => sameEntries a b
  | _, _ => false

/-- The same keys in the same order, with values that mean the same. -/
def sameEntries : List (String × Value) → List (String × Value) → Bool
  | [], [] => true
  | (k, v) :: a, (l, w) :: b => k == l && v.same w && sameEntries a b
  | _, _ => false

end

instance : BEq Value := ⟨Value.same⟩

instance : BEq Document := ⟨fun a b => sameEntries a.entries b.entries⟩

mutual

/-- The value with every mapping in braces and every set sorted. -/
def Value.normalize : Value → Value
  | .set items => .set (items.mergeSort (· ≤ ·))
  | .map _ entries => .map .braced (normalizeEntries entries)
  | value => value

def normalizeEntries : List (String × Value) → List (String × Value)
  | [] => []
  | (key, value) :: rest => (key, value.normalize) :: normalizeEntries rest

end

end ApplianceConfig
