import ApplianceConfig.Compile.Ledger
import ApplianceConfig.Compile.Marker
import ApplianceConfig.Compile.System
import ApplianceConfig.Compile.Traffic

/-!
# Compiling stamps

A stamp is compiled by running its recipe on a fresh copy of its template. The keys that the recipe asks for come from compiling the stamps that bear them. Their kinds are of lower rank, which is why compiling ends.
-/

namespace ApplianceConfig

namespace Stamp

/-- The dialect that a stamp is written in for a version. -/
def dialect (stamp : Stamp) (version : Version) : Dialect :=
  match stamp with
  | .partition _ | .folder => markerDialect version
  | _ => Dialect.ofVersion version

def modernRecipe (stamp : Stamp) (scope : Scope) (template : Document) :
    Recipe stamp.kind.rank Output :=
  match stamp with
  | .partition s => .ofExcept (s.modern scope template)
  | .folder => .ofExcept (folderMarkerModern scope template)
  | .raw object => .done object.output
  | .node s => .ofExcept (s.modern scope template)
  | .pool s => s.modern scope template
  | .virtualServer s => s.modern scope template
  | .profile _ => .done {}
  | .selfIp s => s.modern scope template
  | .trunk s => .ofExcept (s.modern scope template)
  | .vlan s => .ofExcept (s.modern scope template)
  | .routeDomain s => s.modern scope template
  | .provision s => .ofExcept (s.modern scope template)
  | .defaults => .done { value := template }
  | .platform s => .ofExcept (s.modern scope template)
  | .dns s => .ofExcept (s.modern scope template)
  | .ntp s => .ofExcept (s.modern scope template)
  | .mail s => .ofExcept (s.modern scope template)
  | .user s => .ofExcept (s.modern scope template)
  | .addressList s => .ofExcept (s.modern scope template)
  | .portList s => .ofExcept (s.modern scope template)
  | .ruleList s => s.modern scope template
  | .firewall s => s.modern scope template

def legacyRecipe (stamp : Stamp) (scope : Scope) (template : Document) :
    Recipe stamp.kind.rank Output :=
  match stamp with
  | .partition s => .ofExcept (s.legacy scope template)
  | .raw object => .done object.output
  | .node s => .ofExcept (s.legacy scope template)
  | .pool s => .ofExcept (s.legacy scope template)
  | .virtualServer s => s.legacy scope template
  | .selfIp s => s.legacy scope template
  | .vlan s => .ofExcept (s.legacy scope template)
  | .provision s => .ofExcept (s.legacy scope template)
  | .defaults => .ofExcept (defaultsLegacy scope template)
  | .platform s => .ofExcept (s.legacy scope template)
  | .dns s => .ofExcept (s.legacy scope template)
  | .ntp s => .ofExcept (s.legacy scope template)
  | .user s => .ofExcept (s.legacy scope template)
  | .folder | .profile _ | .trunk _ | .routeDomain _ | .mail _ | .addressList _ | .portList _
  | .ruleList _ | .firewall _ => .done {}

def recipe (stamp : Stamp) (dialect : Dialect) (scope : Scope) (template : Document) :
    Recipe stamp.kind.rank Output :=
  match dialect with
  | .modern => stamp.modernRecipe scope template
  | .legacy => stamp.legacyRecipe scope template

end Stamp

namespace Tree

/-- Runs the recipe of a stamp with the given answers to its questions. -/
def runRecipe (tree : Tree) (id : StampId) (stamp : Stamp) (folder : FolderId)
    (answer : (id : StampId) → (kind : Kind) → kind.rank < stamp.kind.rank → Compile String) :
    Compile Compiled := do
  let dialect := stamp.dialect tree.context.version
  let template ← Compile.template stamp.kind dialect
  Compile.noteRun id
  let output ← (stamp.recipe dialect (tree.scope folder stamp.kind) template).run Compile.raise answer
  return { key := output.key, value := output.value, dialect }

/-- Compiles a stamp unless that has been done, with the given answers to its recipe's questions. -/
def compileSlot (tree : Tree) (id : StampId) (slot : Slot)
    (answer : (id : StampId) → (kind : Kind) → kind.rank < slot.stamp.kind.rank → Compile String) :
    Compile Compiled := fun ledger =>
  match ledger.result? id with
  | some compiled => (.ok compiled, ledger)
  | none =>
    match slot.folder with
    | none => (.error (.missingContext slot.stamp.kind), ledger)
    | some folder =>
      if ledger.running.contains id then (.error (.referenceCycle slot.stamp.kind), ledger)
      else
        let (result, after) := tree.runRecipe id slot.stamp folder answer (ledger.begin id)
        (result, after.finish id result)

/-- Compiles a stamp of a kind whose rank is below a bound. -/
def compileBelow (tree : Tree) (bound : Nat) (id : StampId) (slot : Slot)
    (hrank : slot.stamp.kind.rank < bound) : Compile Compiled :=
  match bound with
  | bound + 1 =>
    tree.compileSlot id slot fun target kind hlower =>
      match tree.slot? target with
      | none => .raise (.unknownStamp target)
      | some other =>
        if hkind : other.stamp.kind = kind then do
          let compiled ← Compile.referredBy slot.stamp.kind
            (tree.compileBelow bound target other (by rw [hkind]; omega))
          match compiled.key with
          | some key => return key
          | none => .raise (.noReferenceKey kind)
        else .raise (.unexpectedKind kind other.stamp.kind)

/-- Compiles a stamp of the tree. -/
def compile (tree : Tree) (id : StampId) : Compile Compiled :=
  match tree.slot? id with
  | none => .raise (.unknownStamp id)
  | some slot => tree.compileBelow (slot.stamp.kind.rank + 1) id slot (Nat.lt_succ_self _)

/-- The key that a stamp is referred to by, if it has one. -/
def reference (tree : Tree) (id : StampId) : Compile (Option String) := do
  return (← tree.compile id).key

end Tree

end ApplianceConfig
