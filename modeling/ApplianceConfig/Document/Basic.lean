import ApplianceConfig.Assoc
import ApplianceConfig.Text.Decimal

/-!
# Configuration documents

A document is an ordered mapping from keys to values. A value may itself be such a mapping, so a document is a tree. The style of a mapping says how it is written out and carries no meaning of its own.
-/

namespace ApplianceConfig

/-- How a mapping is written: in braces with a line for each entry, collapsed into one line of several keys, or as lines without braces. -/
inductive Style
  | braced
  | chained
  | bare
  deriving DecidableEq, Repr, Inhabited

/-- What stands behind a key. A `toggle` is a key that stands alone on its line, `absent` is the literal `none`, `text` is quoted where it has to be, and `raw` is written as it is. -/
inductive Value
  | toggle
  | absent
  | bool (b : Bool)
  | int (n : Int64)
  | text (s : String)
  | raw (s : String)
  | set (items : List String)
  | map (style : Style) (entries : List (String × Value))
  deriving Repr, Inhabited

abbrev Entries := Assoc Value

structure Document where
  style : Style := .braced
  entries : Entries := []
  deriving Repr, Inhabited

namespace Value

/-- A mapping in braces. -/
def block (entries : Entries) : Value := .map .braced entries

def number (n : Nat) : Value := .int (Int64.ofNat n)

/-- What an unquoted word stands for in the place of a value. -/
def ofWord (word : String) : Value :=
  if word = "true" then .bool true
  else if word = "false" then .bool false
  else .text word

/-- What a run of digits stands for; a number beyond 64 bits stays text. -/
def ofDigits (digits : String) : Value :=
  match Text.int64? digits with
  | some n => .int n
  | none => .text digits

/-- The characters of a textual value. -/
def chars? : Value → Option String
  | .text s | .raw s => some s
  | _ => none

def entries? : Value → Option Entries
  | .map _ entries => some entries
  | _ => none

/-- Holds of values without content: `none` and empty sets and mappings. -/
def isEmpty : Value → Bool
  | .absent => true
  | .set items => items.isEmpty
  | .map _ entries => entries.isEmpty
  | _ => false

end Value

namespace Document

def value (doc : Document) : Value := .map doc.style doc.entries

def isEmpty (doc : Document) : Bool := doc.entries.isEmpty

def get? (doc : Document) (key : String) : Option Value := Assoc.get? doc.entries key

def contains (doc : Document) (key : String) : Bool := Assoc.contains doc.entries key

def keys (doc : Document) : List String := Assoc.keys doc.entries

/-- Writes a value; a key that is already there keeps its place. -/
def insert (doc : Document) (key : String) (value : Value) : Document :=
  { doc with entries := Assoc.put doc.entries key value }

def insertAll (doc : Document) (entries : Entries) : Document :=
  { doc with entries := Assoc.putAll doc.entries entries }

def erase (doc : Document) (key : String) : Document :=
  { doc with entries := Assoc.erase doc.entries key }

def clear (doc : Document) : Document := { doc with entries := [] }

def withStyle (doc : Document) (style : Style) : Document := { doc with style }

/-- Renames a key in its place. It fails when the key is missing or the new name is taken. -/
def rename? (doc : Document) (old new : String) : Option Document :=
  (Assoc.rename? doc.entries old new).map fun entries => { doc with entries }

end Document

end ApplianceConfig
