import ApplianceConfig.Document.Basic
import ApplianceConfig.Document.Quoted

/-!
# Documents as text

Each entry of a document starts a line of its own. A mapping opens a brace on the line of its key, puts each entry on a line one step deeper and closes the brace at its own depth; a bare mapping does the same without braces. A chained mapping has no line of its own: each of its entries is written behind the key of the chain.
-/

namespace ApplianceConfig

namespace Value

/-- The text of a value that is not a mapping. -/
def inline : Value → String
  | .toggle | .map .. => ""
  | .absent => "none"
  | .bool true => "true"
  | .bool false => "false"
  | .int n => toString n.toInt
  | .text s => Quoted.encode s
  | .raw s => s
  | .set [] => "\x7b\x7d"
  | .set items => "\x7b " ++ " ".intercalate (items.map Quoted.encode) ++ " \x7d"

end Value

namespace Encode

def margin (width : Nat) : String := String.ofList (List.replicate width ' ')

/-- A nonempty mapping around its items, each of which starts a line. -/
def block (style : Style) (indent level : Nat) (items : List String) : String :=
  let body := String.join (items.map ("\n" ++ margin (indent * (level + 1)) ++ ·))
  let inner := body ++ "\n" ++ margin (indent * level)
  if style = .bare then inner else "\x7b" ++ inner ++ "\x7d"

mutual

/-- The items that a key and its value are written as: one, or as many as a chain has. -/
def items (indent level : Nat) (key : String) : Value → List String
  | .toggle => [key]
  | .map style entries =>
    if entries.isEmpty then [key ++ " \x7b\x7d"]
    else if style = .chained then itemsOf indent level (key ++ " ") entries
    else [key ++ " " ++ block style indent level (itemsOf indent (level + 1) "" entries)]
  | value => [key ++ " " ++ value.inline]

/-- The items of entries in order, each key behind `lead`. -/
def itemsOf (indent level : Nat) (lead : String) : List (String × Value) → List String
  | [] => []
  | (key, value) :: rest =>
    items indent level (lead ++ key) value ++ itemsOf indent level lead rest

end

end Encode

/-- The text of a document, in which every entry ends with a line feed. -/
def Document.encode (doc : Document) (indent : Nat) : String :=
  String.join ((Encode.itemsOf indent 0 "" doc.entries).map (· ++ "\n"))

/-- The number of blanks for each level when nothing else is said. -/
def Document.defaultIndent : Nat := 4

instance : ToString Document := ⟨fun doc => doc.encode Document.defaultIndent⟩

end ApplianceConfig
