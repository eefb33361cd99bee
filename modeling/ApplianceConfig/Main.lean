import ApplianceConfig.CommandLine

/-!
# The program
-/

open ApplianceConfig

/-- The text of a file or of the standard input, or the reason why it cannot be read. -/
def readSource (file : Option String) : IO (Except String String) := do
  try
    match file with
    | some path => return .ok (← IO.FS.readFile path)
    | none => return .ok (← (← IO.getStdin).readToEnd)
  catch e => return .error (toString e)

def main (arguments : List String) : IO UInt32 := do
  let outcome ← CommandLine.run arguments readSource
  IO.print outcome.stdout
  IO.eprint outcome.stderr
  return outcome.code
