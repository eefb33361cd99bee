import ApplianceConfig.Text.Decimal
import ApplianceConfig.Text.DecimalDigit
import ApplianceConfig.Version.Basic

/-!
# Versions in text

The numbers of a version start at the first run of digits that a point and another digit follow. Behind the two numbers that must be there, each further number may be missing: a point may stand before the patch number, any text without digits before the build number, and a point before the hotfix and development numbers. The product family is whatever family the whole text mentions.
-/

namespace ApplianceConfig

namespace Version

/-- The run of digits in front, and what is behind it. -/
def digitRun (cs : List Char) : List Char × List Char :=
  (cs.takeWhile Text.isDecimalDigit, cs.dropWhile Text.isDecimalDigit)

/-- Skips one point. -/
def skipPoint : List Char → List Char
  | '.' :: rest => rest
  | cs => cs

/-- The six runs of digits of a version that starts here. Runs that are missing are empty. -/
def runsHere (cs : List Char) : Option (List (List Char)) :=
  match digitRun cs with
  | ([], _) => none
  | (major, '.' :: rest) =>
    match digitRun rest with
    | ([], _) => none
    | (minor, rest) =>
      let (patch, rest) := digitRun (skipPoint rest)
      let (build, rest) := digitRun (rest.dropWhile (!Text.isDecimalDigit ·))
      let (hotfix, rest) := digitRun (skipPoint rest)
      let (devel, _) := digitRun (skipPoint rest)
      some [major, minor, patch, build, hotfix, devel]
  | _ => none

/-- The runs of digits of the first version in a text. -/
def runs : List Char → Option (List (List Char))
  | [] => none
  | c :: rest =>
    match runsHere (c :: rest) with
    | some found => some found
    | none => runs rest

/-- The number of a run of digits, zero when it is missing. Only ASCII digits make a number. -/
def runNumber (run : List Char) : Option UInt32 :=
  if run.isEmpty then some 0 else Text.uint32? (String.ofList run)

/-- The version that a text names, if its numbers fit 32 bits. -/
def parse? (text : String) : Option Version := do
  match ← (← runs text.toList).mapM runNumber with
  | [major, minor, patch, build, hotfix, devel] =>
    some { product := .detect text, major, minor, patch, build, hotfix, devel }
  | _ => none

/-- What is said of a text that names no version. -/
def invalidMessage (text : String) : String := "invalid version string '" ++ text ++ "'"

end Version

end ApplianceConfig
