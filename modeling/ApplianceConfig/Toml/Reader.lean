import ApplianceConfig.Toml.Draft
import ApplianceConfig.Toml.Moment
import ApplianceConfig.Toml.Number
import ApplianceConfig.Toml.Quoted

/-!
# Reading TOML

A document is a sequence of lines that give keys values, of table headers and of comments. Arrays may go over several lines and end with a comma; tables that are written as values stay on one line and do not. Brackets and dotted keys go no deeper than a fixed depth.
-/

namespace ApplianceConfig.Toml

/-- Dotted keys and brackets stay below this depth. -/
def depthLimit : Nat := 80

/-! ### Keys -/

def isBareChar (c : Char) : Bool := c.isAlphanum || c == '_' || c == '-'

def name? : Text.Reader String := fun cs =>
  match cs.takeWhile isBareChar with
  | [] => lineText? cs
  | bare => some (String.ofList bare, cs.drop bare.length)

/-- Names with points between them. Blanks may surround each name. -/
def names? (cs : List Char) : Option (List String × List Char) :=
  match name? (skipBlanks cs) with
  | none => none
  | some (name, rest) =>
    match skipBlanks rest with
    | '.' :: more =>
      if more.length < cs.length then
        (names? more).map fun (names, rest) => (name :: names, rest)
      else none
    | rest => some ([name], rest)
  termination_by cs.length

def key? : Text.Reader Key := fun cs => do
  let (names, rest) ← names? cs
  let name ← names.getLast?
  if names.length < depthLimit then some (⟨names.dropLast, name⟩, rest) else none

/-! ### Values -/

def scalar? : Text.Reader Value := fun cs =>
  match cs with
  | [] => none
  | c :: _ =>
    if c = '"' ∨ c = apostrophe then (text? cs).map fun (s, rest) => (.text s, rest)
    else if "true".toList.isPrefixOf cs then some (.bool true, cs.drop 4)
    else if "false".toList.isPrefixOf cs then some (.bool false, cs.drop 5)
    else
      match afterMoment? cs with
      | some rest => some (.moment (taken cs rest), rest)
      | none => number? cs

/-- The items of an array behind its opening bracket. -/
def items? {α : Type} (item? : Text.Reader α) (cs : List Char) : Option (List α × List Char) :=
  match skipLines cs with
  | ']' :: rest => some ([], rest)
  | start =>
    match item? start with
    | none => none
    | some (item, rest) =>
      match skipLines rest with
      | ']' :: rest => some ([item], rest)
      | ',' :: more =>
        if more.length < cs.length then
          (items? item? more).map fun (items, rest) => (item :: items, rest)
        else none
      | _ => none
  termination_by cs.length

/-- The pairs of a table that is written as a value, up to its closing brace. -/
def pairs? {α : Type} (pair? : Text.Reader α) (cs : List Char) : Option (List α × List Char) :=
  match pair? cs with
  | none => none
  | some (pair, rest) =>
    match skipBlanks rest with
    | '\x7d' :: rest => some ([pair], rest)
    | ',' :: more =>
      if more.length < cs.length then
        (pairs? pair? more).map fun (pairs, rest) => (pair :: pairs, rest)
      else none
    | _ => none
  termination_by cs.length

def pair? (value? : Text.Reader Value) : Text.Reader (Key × Value) := fun cs => do
  let (key, rest) ← key? cs
  let (v, rest) ← value? (skipBlanks (← Text.expect? '=' rest))
  return ((key, v), rest)

def inlineTable? (value? : Text.Reader Value) : Text.Reader Value := fun cs => do
  let (pairs, rest) ← match skipBlanks cs with
    | '\x7d' :: rest => some ([], rest)
    | start => pairs? (pair? value?) start
  let draft ← Draft.ofPairs? pairs
  return (.table draft.finished, rest)

/-- A value in which brackets open at most `room` levels. -/
def value? (room : Nat) (cs : List Char) : Option (Value × List Char) :=
  match room, cs with
  | room + 1, '[' :: rest => (items? (value? room) rest).map fun (vs, rest) => (.array vs, rest)
  | room + 1, '\x7b' :: rest => inlineTable? (value? room) rest
  | _, cs => scalar? cs

/-! ### Documents -/

/-- The header of a table, or in double brackets that of an element of an array. -/
def header? (sheet : Sheet) (cs : List Char) : Option (Sheet × List Char) :=
  match cs with
  | '[' :: rest => do
    let (key, rest) ← key? rest
    let rest ← lineEnd? (← Text.expect? ']' (← Text.expect? ']' rest))
    return (← sheet.enterElement? key, rest)
  | rest => do
    let (key, rest) ← key? rest
    let rest ← lineEnd? (← Text.expect? ']' rest)
    return (← sheet.enterTable? key, rest)

def assignment? (sheet : Sheet) (cs : List Char) : Option (Sheet × List Char) := do
  let ((key, v), rest) ← pair? (value? (depthLimit - 1)) cs
  return (← sheet.assign? key v, ← lineEnd? rest)

/-- One line with the end that it must have. -/
def line? (sheet : Sheet) : List Char → Option (Sheet × List Char)
  | '[' :: rest => header? sheet rest
  | cs =>
    match lineEnd? cs with
    | some rest => some (sheet, rest)
    | none => assignment? sheet cs

def lines? (sheet : Sheet) (cs : List Char) : Option Sheet :=
  match skipBlanks cs with
  | [] => some sheet
  | start =>
    match line? sheet start with
    | none => none
    | some (sheet, rest) => if rest.length < cs.length then lines? sheet rest else none
  termination_by cs.length

/-- A mark of the byte order in front of a text means nothing. -/
def skipByteOrderMark : List Char → List Char
  | '\uFEFF' :: rest => rest
  | cs => cs

def Table.parse? (text : String) : Option Table :=
  (lines? {} (skipByteOrderMark text.toList)).map fun sheet => sheet.root.finished

end ApplianceConfig.Toml
