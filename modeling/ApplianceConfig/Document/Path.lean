import ApplianceConfig.Document.Basic

/-!
# Paths into documents

A path is a list of keys. All keys but the last lead through mappings, and the last one names an entry. An operation at a path either changes that one entry or fails as a whole.
-/

namespace ApplianceConfig

namespace Entries

/-- The mapping that a path of keys leads to. -/
def block? (entries : Entries) : List String → Option Entries
  | [] => some entries
  | key :: rest =>
    match Assoc.get? entries key with
    | some (.map _ inner) => block? inner rest
    | _ => none

/-- Changes the mapping that a path of keys leads to. -/
def modifyBlock? (entries : Entries) (path : List String) (f : Entries → Option Entries) :
    Option Entries :=
  match path with
  | [] => f entries
  | key :: rest =>
    Assoc.modify? entries key fun
      | .map style inner => (modifyBlock? inner rest f).map (.map style)
      | _ => none

/-- The value that a path names. The empty path names none. -/
def at? (entries : Entries) (path : List String) : Option Value := do
  let last ← path.getLast?
  let inner ← block? entries path.dropLast
  Assoc.get? inner last

/-- Renames the last key of a path in its place. -/
def renameAt? (entries : Entries) (path : List String) (new : String) : Option Entries := do
  let last ← path.getLast?
  modifyBlock? entries path.dropLast (Assoc.rename? · last new)

/-- Overwrites the value that a path names. -/
def replaceAt? (entries : Entries) (path : List String) (value : Value) : Option Entries := do
  let last ← path.getLast?
  modifyBlock? entries path.dropLast (Assoc.modify? · last fun _ => some value)

/-- Writes an entry into the mapping that a nonempty path names. -/
def insertAt? (entries : Entries) (path : List String) (key : String) (value : Value) :
    Option Entries :=
  if path.isEmpty then none
  else modifyBlock? entries path fun inner => some (Assoc.put inner key value)

end Entries

namespace Document

def at? (doc : Document) (path : List String) : Option Value := Entries.at? doc.entries path

/-- The entries of the mapping that a nonempty path names. -/
def block? (doc : Document) (path : List String) : Option Entries :=
  if path.isEmpty then none else Entries.block? doc.entries path

def renameAt? (doc : Document) (path : List String) (new : String) : Option Document :=
  (Entries.renameAt? doc.entries path new).map fun entries => { doc with entries }

def replaceAt? (doc : Document) (path : List String) (value : Value) : Option Document :=
  (Entries.replaceAt? doc.entries path value).map fun entries => { doc with entries }

def insertAt? (doc : Document) (path : List String) (key : String) (value : Value) :
    Option Document :=
  (Entries.insertAt? doc.entries path key value).map fun entries => { doc with entries }

end Document

end ApplianceConfig
