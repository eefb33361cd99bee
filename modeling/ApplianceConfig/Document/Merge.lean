import ApplianceConfig.Document.Basic

/-!
# Merging documents

Writing an entry over an earlier one of its key replaces the earlier value in place, except that two chained mappings are merged key by key. Lines such as `ltm pool p` and `ltm node n` thus end up under one `ltm`.
-/

namespace ApplianceConfig

mutual

/-- The value that stays when the first value is written over the second. -/
def Value.over : Value → Value → Value
  | .map .chained incoming, .map .chained present =>
    .map .chained (mergeInto incoming present)
  | incoming, _ => incoming

/-- Writes entries one after another into a mapping. -/
def mergeInto : List (String × Value) → List (String × Value) → List (String × Value)
  | [], present => present
  | (key, value) :: rest, present =>
    mergeInto rest (Assoc.alter present key fun
      | none => value
      | some earlier => value.over earlier)

end

namespace Entries

def mergeEntry (entries : Entries) (key : String) (value : Value) : Entries :=
  mergeInto [(key, value)] entries

def merge (entries more : Entries) : Entries := mergeInto more entries

end Entries

namespace Document

def mergeEntry (doc : Document) (key : String) (value : Value) : Document :=
  { doc with entries := Entries.mergeEntry doc.entries key value }

def merge (doc more : Document) : Document :=
  { doc with entries := Entries.merge doc.entries more.entries }

end Document

end ApplianceConfig
