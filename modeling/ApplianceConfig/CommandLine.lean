import ApplianceConfig.Generation
import ApplianceConfig.Template.Listing

/-!
# The command line

Arguments are read one at a time. An option may be written short or long, its value may follow it in the same argument or be the next one, and short options may share an argument. Behind `--` every argument is a file. The first argument that cannot be understood ends the reading, and so does a request for help.
-/

namespace ApplianceConfig.CommandLine

/-- The options that take a value. -/
inductive Setting
  | target
  | partition
  deriving DecidableEq, Repr

inductive UsageError
  | unknownOption (text : String)
  | missingValue (setting : Setting)
  | unexpectedValue (option : String)
  | repeated (option : String)
  | secondFile (text : String)
  | emptyFile
  | invalidTarget (text : String)
  deriving DecidableEq, Repr

/-- What is asked for: an explanation of the command line, a list of all templates, or the configuration for the topology in a file or else in the standard input. -/
inductive Request
  | help
  | templates
  | generate (file : Option String) (options : GenerationOptions)

/-- Arguments as far as they have been read. `awaiting` is a setting whose value is the next argument. -/
structure Progress where
  file : Option String := none
  target : Option Version := none
  partition : Option String := none
  directOnly : Bool := false
  templates : Bool := false
  awaiting : Option Setting := none
  filesOnly : Bool := false

/-- Why reading stops before the last argument. -/
inductive Stop
  | help
  | error (e : UsageError)

def Setting.name : Setting → String
  | .target => "--target"
  | .partition => "--partition"

namespace Progress

abbrev Result := Except Stop Progress

def fail (e : UsageError) : Result := .error (.error e)

def withFile (p : Progress) (path : String) : Result :=
  if p.file.isSome then fail (.secondFile path)
  else if path.isEmpty then fail .emptyFile
  else .ok { p with file := some path }

def withValue (p : Progress) (setting : Setting) (text : String) : Result :=
  let p := { p with awaiting := none }
  match setting with
  | .target =>
    if p.target.isSome then fail (.repeated setting.name)
    else
      match Version.parse? text with
      | some version => .ok { p with target := some version }
      | none => fail (.invalidTarget text)
  | .partition =>
    if p.partition.isSome then fail (.repeated setting.name)
    else .ok { p with partition := some text }

/-- A setting whose value may be part of its argument. -/
def withSetting (p : Progress) (setting : Setting) : Option String → Result
  | some text => p.withValue setting text
  | none => .ok { p with awaiting := some setting }

/-- An option without a value, by its long name. How much is told on the way may be asked for, and changes nothing. -/
def withFlag (p : Progress) (name : String) : Result :=
  match name with
  | "no-recursive" =>
    if p.directOnly then fail (.repeated "--no-recursive") else .ok { p with directOnly := true }
  | "templates" =>
    if p.templates then fail (.repeated "--templates") else .ok { p with templates := true }
  | "verbose" => .ok p
  | "help" => .error .help
  | _ => fail (.unknownOption ("--" ++ name))

/-- A long option: its name, and behind an equals sign its value. -/
def withLong (p : Progress) (text : List Char) : Result :=
  let name := String.ofList (text.takeWhile (· ≠ '='))
  let value := match text.dropWhile (· ≠ '=') with
    | _ :: value => some (String.ofList value)
    | [] => none
  match name with
  | "target" => p.withSetting .target value
  | "partition" => p.withSetting .partition value
  | _ =>
    match p.withFlag name with
    | .error (.error e) => fail e
    | result => if value.isSome then fail (.unexpectedValue ("--" ++ name)) else result

/-- The value behind a short option in its argument, where an equals sign may precede it. -/
def attached : List Char → Option String
  | [] => none
  | '=' :: rest => some (String.ofList rest)
  | rest => some (String.ofList rest)

/-- Short options that share an argument. -/
def withShort (p : Progress) : List Char → Result
  | [] => .ok p
  | 't' :: rest => p.withSetting .target (attached rest)
  | 'p' :: rest => p.withSetting .partition (attached rest)
  | 'v' :: rest => p.withShort rest
  | 'h' :: _ => .error .help
  | c :: _ => fail (.unknownOption (String.ofList ['-', c]))

def step (p : Progress) (argument : String) : Result :=
  let cs := argument.toList
  if p.filesOnly then p.withFile argument
  else
    match p.awaiting, cs with
    | some setting, '-' :: _ :: _ => fail (.missingValue setting)
    | some setting, _ => p.withValue setting argument
    | none, ['-', '-'] => .ok { p with filesOnly := true }
    | none, '-' :: '-' :: long => p.withLong long
    | none, '-' :: c :: short => p.withShort (c :: short)
    | none, _ => p.withFile argument

def finish (p : Progress) : Except UsageError Request :=
  match p.awaiting with
  | some setting => .error (.missingValue setting)
  | none =>
    if p.templates then .ok .templates
    else
      .ok (.generate p.file {
        render := { recursive := !p.directOnly }, target := p.target, partition := p.partition })

end Progress

/-- What the arguments ask for. -/
def parse (arguments : List String) : Except UsageError Request :=
  match arguments.foldlM Progress.step {} with
  | .ok p => p.finish
  | .error .help => .ok .help
  | .error (.error e) => .error e

/-! ### Outcomes -/

/-- How a run ends: the exit code and what is written. -/
structure Outcome where
  code : UInt32 := 0
  stdout : String := ""
  stderr : String := ""
  deriving DecidableEq, Repr

def UsageError.message : UsageError → String
  | .unknownOption text => "unknown option '" ++ text ++ "'"
  | .missingValue setting => "option '" ++ setting.name ++ "' needs a value"
  | .unexpectedValue option => "option '" ++ option ++ "' takes no value"
  | .repeated option => "option '" ++ option ++ "' is given twice"
  | .secondFile text => "unexpected argument '" ++ text ++ "'"
  | .emptyFile => "the name of the file is empty"
  | .invalidTarget text => Version.invalidMessage text

def usage : String := "\n".intercalate [
  "Compile a TOML topology into configuration text",
  "",
  "Usage: appliance-config [OPTIONS] [FILE]",
  "",
  "Arguments:",
  "  [FILE]  Topology file (standard input when missing)",
  "",
  "Options:",
  "  -t, --target <VERSION>  Version to compile for, such as \"bigip 11.5.0\"",
  "  -p, --partition <NAME>  Render only this partition",
  "      --no-recursive      Do not descend into nested folders",
  "      --templates         Print all templates",
  "  -v, --verbose           Accepted, changes nothing",
  "  -h, --help              Print this text",
  ""]

/-- A command line that cannot be understood. -/
def UsageError.outcome (e : UsageError) : Outcome :=
  { code := 2, stderr := "error: " ++ e.message ++ "\n\n" ++ usage }

/-- A topology that cannot be read. -/
def unreadable (file : Option String) (reason : String) : Outcome :=
  let place := match file with
    | some path => "file '" ++ path ++ "'"
    | none => "from stdin"
  { code := 1, stderr := "Error reading " ++ place ++ ": " ++ reason ++ "\n" }

/-- The text of a `holder` that is no document. The report points at the place of the error. Nothing can point at a place that stops before it starts, and such a run is broken off with a code of its own. -/
def malformed (holder : String) (e : Grammar.Error) : Outcome :=
  { code := if e.span.start ≤ e.span.stop then 1 else 101
    stderr := holder ++ ": " ++ e.display ++ "\n" }

/-- A topology without a configuration. -/
def failed : GenerationError → Outcome
  | .compile (.grammar e) => malformed "template" e
  | .topology (.grammar e) => malformed "raw stamp" e
  | e => { code := 1, stderr := "Error: " ++ e.message ++ "\n" }

def generated (source : String) (options : GenerationOptions) : Outcome :=
  match generate source options with
  | .ok text => { stdout := text }
  | .error e => failed e

def listed : Outcome :=
  match Template.listing with
  | .ok text => { stdout := text }
  | .error e => malformed "template" e

/-- How a run with the given arguments ends. `read` gives the text of a file, or of the standard input, or the reason why it cannot be read; it is asked at most once. -/
def run {m : Type → Type} [Monad m] (arguments : List String)
    (read : Option String → m (Except String String)) : m Outcome :=
  match parse arguments with
  | .error e => pure e.outcome
  | .ok .help => pure { stdout := usage }
  | .ok .templates => pure listed
  | .ok (.generate file options) => do
    match ← read file with
    | .ok source => return generated source options
    | .error reason => return unreadable file reason

end ApplianceConfig.CommandLine
