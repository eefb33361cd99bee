import ApplianceConfig.Compile.Recipe
import ApplianceConfig.Template.Cache

/-!
# The ledger of compilation

A stamp is compiled once, and the result is kept. The ledger holds these results, the stamps whose compilation has begun and not ended, every run of a recipe, and the template cache. A failure leaves no result behind, so a later attempt starts anew.
-/

namespace ApplianceConfig

/-- What a stamp has been compiled to, and in which dialect. -/
structure Compiled where
  key : Option String
  value : Option Document
  dialect : Dialect
  deriving Repr, Inhabited

/-- Holds when there is nothing to write. -/
def Compiled.isEmpty (compiled : Compiled) : Bool :=
  match compiled.value with
  | some doc => doc.isEmpty
  | none => true

structure Ledger where
  results : List (StampId × Compiled) := []
  running : List StampId := []
  runs : List StampId := []
  cache : Template.Cache := {}
  deriving Inhabited

namespace Ledger

def result? (ledger : Ledger) (id : StampId) : Option Compiled := ledger.results.lookup id

/-- The counter of a stamp. Each run of its recipe adds one, and behind the last number of 32 bits comes zero again. -/
def counter (ledger : Ledger) (id : StampId) : UInt32 :=
  ledger.runs.foldr (fun run counter => if run = id then counter + 1 else counter) 0

/-- How often a stamp's recipe has been run, as its counter shows it. -/
def count (ledger : Ledger) (id : StampId) : Nat := (ledger.counter id).toNat

def begin (ledger : Ledger) (id : StampId) : Ledger :=
  { ledger with running := id :: ledger.running }

/-- Ends the compilation of a stamp and keeps its result, if it has one. -/
def finish (ledger : Ledger) (id : StampId) (result : Except CompileError Compiled) : Ledger :=
  let ended := { ledger with running := ledger.running.erase id }
  match result with
  | .ok compiled => { ended with results := (id, compiled) :: ended.results }
  | .error _ => ended

/-- The ledger without its results. -/
def forget (ledger : Ledger) : Ledger := { ledger with results := [] }

end Ledger

/-- A computation that works on the ledger and may fail. What it did to the ledger before a failure stays. -/
def Compile (α : Type) : Type := Ledger → Except CompileError α × Ledger

namespace Compile

variable {α β : Type}

def succeed (a : α) : Compile α := fun ledger => (.ok a, ledger)

def raise (e : CompileError) : Compile α := fun ledger => (.error e, ledger)

def andThen (x : Compile α) (next : α → Compile β) : Compile β := fun ledger =>
  match x ledger with
  | (.ok a, ledger) => next a ledger
  | (.error e, ledger) => (.error e, ledger)

instance : Monad Compile where
  pure := succeed
  bind := andThen

instance : LawfulMonad Compile := LawfulMonad.mk' Compile
  (fun x => by
    funext ledger
    change andThen x (fun a => succeed (id a)) ledger = x ledger
    unfold andThen succeed
    split <;> simp_all)
  (fun _ _ => rfl)
  (fun x f g => by
    funext ledger
    change andThen (andThen x f) g ledger = andThen x (fun a => andThen (f a) g) ledger
    unfold andThen
    split <;> split at * <;> simp_all)

/-- Reports a failure as one of a reference from a stamp of a kind. -/
def referredBy (kind : Kind) (x : Compile α) : Compile α := fun ledger =>
  match x ledger with
  | (.ok a, ledger) => (.ok a, ledger)
  | (.error e, ledger) => (.error (.reference kind e), ledger)

/-- The template for a kind in a dialect. -/
def template (kind : Kind) (dialect : Dialect) : Compile Document := fun ledger =>
  match ledger.cache.get kind dialect with
  | (.ok doc, cache) => (.ok doc, { ledger with cache })
  | (.error e, cache) => (.error (.grammar e), { ledger with cache })

/-- Notes that the recipe of a stamp is run. -/
def noteRun (id : StampId) : Compile Unit := fun ledger =>
  (.ok (), { ledger with runs := id :: ledger.runs })

end Compile

end ApplianceConfig
