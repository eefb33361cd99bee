import ApplianceConfig.Compile.Error
import ApplianceConfig.Document.Path
import ApplianceConfig.Tree.Basic

/-!
# Recipes

How a stamp becomes an object is a recipe: a computation whose only questions are for the reference keys of other stamps. Each question names the kind of the other stamp, which has to be of lower rank. How the answers are found, and whether they are remembered, is left to whoever runs the recipe.
-/

namespace ApplianceConfig

/-- A computation that may ask for reference keys of stamps of kinds below a rank. -/
inductive Recipe (rank : Nat) (α : Type) : Type
  | done (result : α)
  | fail (e : CompileError)
  | refer (id : StampId) (kind : Kind) (lower : kind.rank < rank) (next : String → Recipe rank α)

namespace Recipe

variable {rank : Nat} {α β : Type}

/-- Goes on with what a recipe results in. -/
def andThen (recipe : Recipe rank α) (next : α → Recipe rank β) : Recipe rank β :=
  match recipe with
  | .done result => next result
  | .fail e => .fail e
  | .refer id kind lower rest => .refer id kind lower fun key => (rest key).andThen next

instance : Monad (Recipe rank) where
  pure := .done
  bind := andThen

def ofExcept : Except CompileError α → Recipe rank α
  | .ok result => .done result
  | .error e => .fail e

instance : MonadLift (Except CompileError) (Recipe rank) := ⟨ofExcept⟩

/-- The reference key of a stamp of a kind. -/
def key (id : StampId) (kind : Kind) (lower : kind.rank < rank) : Recipe rank String :=
  .refer id kind lower .done

/-- Runs a recipe with the given answers to its questions. -/
def run {m : Type → Type} [Monad m] (raise : {β : Type} → CompileError → m β)
    (answer : (id : StampId) → (kind : Kind) → kind.rank < rank → m String) :
    Recipe rank α → m α
  | .done result => pure result
  | .fail e => raise e
  | .refer id kind lower next => do (next (← answer id kind lower)).run raise answer

end Recipe

/-- What a stamp sees of its surroundings: what it is compiled for, its own kind, the path of the folder that it is hooked onto, the partition of that folder, and the other stamps with the paths of theirs. -/
structure Scope where
  context : Context
  kind : Kind
  folderPath : String
  partitionName : String
  partitionIndex : Nat
  stamp? : StampId → Option Stamp
  hookPath? : StampId → Option String

/-- What a stamp of a kind sees from a folder of a tree. -/
def Tree.scope (tree : Tree) (folder : FolderId) (kind : Kind) : Scope :=
  let partition := tree.folder (tree.partitionOf folder)
  { context := tree.context
    kind
    folderPath := tree.path folder
    partitionName := partition.name
    partitionIndex := partition.index
    stamp? := tree.stamp?
    hookPath? := fun id => (tree.stampFolder? id).map tree.path }

namespace Scope

/-- The absolute path of a name in the stamp's folder. -/
def path (scope : Scope) (name : String) : String := scope.folderPath ++ "/" ++ name

/-- A stamp of the tree. -/
def stamp (scope : Scope) (id : StampId) : Except CompileError Stamp :=
  match scope.stamp? id with
  | some stamp => .ok stamp
  | none => .error (.unknownStamp id)

/-- The absolute path of a name in the folder that a stamp is hooked onto. -/
def stampPath (scope : Scope) (id : StampId) (name : String) : Except CompileError String :=
  match scope.hookPath? id with
  | some path => .ok (path ++ "/" ++ name)
  | none => (scope.stamp id).bind fun stamp => .error (.missingContext stamp.kind)

def isBigip (scope : Scope) : Bool := scope.context.version.product == .bigip

/-- Changes the block of a template that a path names, which has to be there. -/
def fill (scope : Scope) (template : Document) (path : List String) (f : Entries → Entries) :
    Except CompileError Document :=
  match Entries.modifyBlock? template.entries path (some ∘ f) with
  | some entries => .ok { template with entries }
  | none => .error (.templateShape scope.kind path)

/-- Gives the block of a template that a path names another name, and changes it. -/
def fillAs (scope : Scope) (template : Document) (path : List String) (name : String)
    (f : Entries → Entries) : Except CompileError Document :=
  let renamed := (template.renameAt? path name).bind fun template =>
    Entries.modifyBlock? template.entries (path.dropLast ++ [name]) (some ∘ f)
  match renamed with
  | some entries => .ok { template with entries }
  | none => .error (.templateShape scope.kind path)

end Scope

/-- What a recipe results in: the key that others refer to the stamp by, and the object to write. -/
structure Output where
  key : Option String := none
  value : Option Document := none
  deriving Repr, Inhabited

/-- Entries whose keys all stand alone. -/
def toggles (keys : List String) : Entries :=
  Assoc.putAll [] (keys.map fun key => (key, Value.toggle))

/-- Entries of empty objects. -/
def emptyObjects (keys : List String) : Entries :=
  Assoc.putAll [] (keys.map fun key => (key, Value.block []))

end ApplianceConfig
