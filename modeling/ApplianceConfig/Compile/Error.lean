import ApplianceConfig.Grammar.Error
import ApplianceConfig.Kind
import ApplianceConfig.Stamp.Rule

/-!
# Errors of compilation
-/

namespace ApplianceConfig

/-- Why a stamp does not compile: its template cannot be read or lacks an entry, it is hooked onto no folder, or something that it refers to is missing, of another kind, without a key, in error itself, or already waiting for it; or a text that has to be an address is none. -/
inductive CompileError
  | grammar (e : Grammar.Error)
  | missingContext (kind : Kind)
  | reference (kind : Kind) (source : CompileError)
  | noReferenceKey (kind : Kind)
  | templateShape (kind : Kind) (path : List String)
  | unexpectedKind (expected found : Kind)
  | referenceCycle (kind : Kind)
  | unknownStamp (id : StampId)
  | invalidAddress (text : String)
  deriving DecidableEq, Repr

def CompileError.message : CompileError → String
  | .grammar e => e.display
  | .missingContext kind => kind.name ++ " compiled before being hooked to a folder"
  | .reference kind source => kind.name ++ " reference failed: " ++ source.message
  | .noReferenceKey kind => kind.name ++ " has no reference key in this dialect"
  | .templateShape kind path =>
    kind.name ++ " template has no entry at '" ++ " ".intercalate path ++ "'"
  | .unexpectedKind expected found =>
    "expected a " ++ expected.name ++ " reference, found " ++ found.name
  | .referenceCycle kind => kind.name ++ " is part of a reference cycle"
  | .unknownStamp id => "unknown stamp #" ++ toString id
  | .invalidAddress text => "invalid address '" ++ text ++ "'"

end ApplianceConfig
