import ApplianceConfig.Toml.Value

/-!
# Tables in the making

A TOML document writes its tables piece by piece: by headers, by headers of single elements of an array, and by dotted keys. Which of these may add to a table depends on how the table came into being, so a draft remembers it. Of an array of tables only the last one can still grow.
-/

namespace ApplianceConfig.Toml

/-- How a table came into being: by a header of its own or as a whole value, as a step on the way of a header, or as a step of a dotted key. -/
inductive Origin
  | declared
  | passed
  | dotted
  deriving DecidableEq, Repr

inductive Item
  | value (v : Value)
  | table (origin : Origin) (entries : List (String × Item))
  | tables (earlier : List Value) (last : List (String × Item))
  deriving Inhabited

abbrev Draft := Assoc Item

/-- A dotted key: the tables on the way, and the name in the last of them. -/
structure Key where
  steps : List String
  name : String
  deriving DecidableEq, Repr

def Key.path (key : Key) : List String := key.steps ++ [key.name]

mutual

def Item.finished : Item → Value
  | .value v => v
  | .table _ entries => .table (finishedEntries entries)
  | .tables earlier last => .array (earlier ++ [.table (finishedEntries last)])

def finishedEntries : List (String × Item) → List (String × Value)
  | [] => []
  | (key, item) :: rest => (key, item.finished) :: finishedEntries rest

end

namespace Draft

def finished (draft : Draft) : Table := finishedEntries draft

/-- Changes the table that a path leads to. Tables that are missing on the way are made as `step` says. A path goes into the last table of an array, but never into a value, and a dotted key does not go into a declared table. -/
def changeAt? (step : Origin) (change : Origin → Draft → Option Draft) (origin : Origin)
    (draft : Draft) : List String → Option Draft
  | [] => change origin draft
  | key :: rest => do
    let item : Item ← match Assoc.get? draft key with
      | none => return Assoc.put draft key (.table step (← changeAt? step change step [] rest))
      | some (.value _) => none
      | some (.tables earlier last) =>
        pure (.tables earlier (← changeAt? step change .declared last rest))
      | some (.table inner entries) =>
        if step = .dotted ∧ inner = .declared then none
        else pure (.table inner (← changeAt? step change inner entries rest))
    return Assoc.put draft key item

/-- Gives a dotted key a value. The key must be new, and its last step must be a table that only dotted keys have written to. -/
def assign? (origin : Origin) (draft : Draft) (key : Key) (v : Value) : Option Draft :=
  changeAt? .dotted
    (fun origin table =>
      if !key.steps.isEmpty && origin ≠ .dotted then none
      else if Assoc.contains table key.name then none
      else some (Assoc.put table key.name (.value v)))
    origin draft key.steps

def ofPairs? (pairs : List (Key × Value)) : Option Draft :=
  pairs.foldlM (fun draft (key, v) => assign? .declared draft key v) []

end Draft

/-- A document as far as it has been read: its tables, and the path of the table that the coming lines belong to. -/
structure Sheet where
  root : Draft := []
  header : List String := []
  deriving Inhabited

namespace Sheet

def assign? (sheet : Sheet) (key : Key) (v : Value) : Option Sheet := do
  let root ← Draft.changeAt? .passed (fun origin table => Draft.assign? origin table key v)
    .declared sheet.root sheet.header
  return { sheet with root }

/-- A header makes its last name an item of the table that the other names lead to. -/
def enter? (sheet : Sheet) (key : Key) (make : Option Item → Option Item) : Option Sheet := do
  let root ← Draft.changeAt? .passed
    (fun _ table => (make (Assoc.get? table key.name)).map (Assoc.put table key.name))
    .declared sheet.root key.steps
  return { root, header := key.path }

/-- The header of a table. The table may be there already if headers have only passed through it. -/
def enterTable? (sheet : Sheet) (key : Key) : Option Sheet :=
  sheet.enter? key fun
    | none => some (.table .declared [])
    | some (.table .passed entries) => some (.table .declared entries)
    | some _ => none

/-- The header of one more element of an array of tables. -/
def enterElement? (sheet : Sheet) (key : Key) : Option Sheet :=
  sheet.enter? key fun
    | none => some (.tables [] [])
    | some (.tables earlier last) =>
      some (.tables (earlier ++ [.table (Draft.finished last)]) [])
    | some _ => none

end Sheet

end ApplianceConfig.Toml
