import ApplianceConfig.Document.Encode
import ApplianceConfig.Template.Cache

/-!
# Listing templates
-/

namespace ApplianceConfig.Template

/-- A template under a line that names its kind and dialect, and above an empty line. -/
def listingOf (kind : Kind) (dialect : Dialect) : Except Grammar.Error String := do
  let template ← parse kind dialect
  return "# " ++ kind.name ++ " (" ++ dialect.name ++ ")\n" ++ toString template ++ "\n"

/-- All templates that have a text, one after another. -/
def listing : Except Grammar.Error String := do
  return String.join (← registered.mapM fun (kind, dialect) => listingOf kind dialect)

end ApplianceConfig.Template
