import GDScript.Batch
import GDScript.Diagnostic.Explain
import GDScript.Settings

/-!
# The command line

`Command.ofArguments` reads the arguments, and `Command.run` does what they ask for. Help, the
version and the documentation of a code need no settings; to read a path, the settings of the
working directory apply, which a reader of documents is brought along for, and a format among the
arguments comes before theirs.
-/

namespace GDScript

/-- What the arguments ask for. -/
inductive Command where
  /-- The help text. -/
  | help
  /-- The version. -/
  | version
  /-- The documentation of the code with an identifier. -/
  | explain (id : Text)
  /-- A run over a path, perhaps with a format. -/
  | parse (path : Text) (format : Option OutputFormat)
deriving DecidableEq, Repr

/-- What is wrong with the arguments. -/
inductive UsageError where
  /-- No identifier follows `--explain`. -/
  | missingId
  /-- No format follows `--format`. -/
  | missingFormat
  /-- What follows `--format` is none. -/
  | unknownFormat (name : Text)
  /-- There is no such option. -/
  | unknownOption (option : Text)
  /-- There is a second path. -/
  | unexpected (argument : Text)
  /-- There is no path. -/
  | missingPath
deriving DecidableEq, Repr

/-- The text of an error. -/
def UsageError.message : UsageError → Text
  | .missingId => "--explain requires an error ID"
  | .missingFormat => "--format requires argument: debug or json"
  | .unknownFormat name => "Invalid format: " ++ name ++ ". Expected debug or json"
  | .unknownOption option => "Unknown option: " ++ option
  | .unexpected argument => "Unexpected argument: " ++ argument
  | .missingPath => "Missing path argument"

namespace Command

/-! ### Arguments -/

/-- The option that asks for the documentation of a code. -/
def explainOption : Text := "--explain"

/-- The option that a format follows. -/
def formatOption : Text := "--format"

/-- The options that ask for the help text. -/
def helpOptions : List Text := ["--help", "-h"]

/-- The options that ask for the version. -/
def versionOptions : List Text := ["--version", "-v"]

/-- An argument that begins with a hyphen. -/
def isOption (argument : Text) : Bool := argument.head? == some 0x2D

/-- The argument that follows an option cannot be its value. -/
def isNoValue (argument : Text) : Bool := argument.isEmpty || isOption argument

/-- The identifier that follows an option. -/
def idAfter : List Text → Except UsageError Command
  | [] => .error .missingId
  | id :: _ => if isNoValue id then .error .missingId else .ok (.explain id)

/-- The format that follows an option. -/
def formatOf (name : Text) : Except UsageError OutputFormat :=
  match OutputFormat.ofName? name with
  | some f => .ok f
  | none => .error (if isNoValue name then .missingFormat else .unknownFormat name)

/-- Reads a path and formats in any order, after what has been found; the last format counts. -/
def pathAndFormat (path : Option Text) (format : Option OutputFormat) :
    List Text → Except UsageError Command
  | [] =>
    match path with
    | some path => .ok (.parse path format)
    | none => .error .missingPath
  | argument :: rest =>
    if argument == formatOption then
      match rest with
      | [] => .error .missingFormat
      | name :: more => do
        let f ← formatOf name
        pathAndFormat path (some f) more
    else if isOption argument then .error (.unknownOption argument)
    -- an argument that is no option is the path, and there is only one
    else if path.isSome then .error (.unexpected argument)
    else pathAndFormat (some argument) format rest

/-- What some arguments ask for. -/
def ofArguments (arguments : List Text) : Except UsageError Command :=
  if arguments.any helpOptions.contains then .ok .help
  else if arguments.any versionOptions.contains then .ok .version
  else if arguments.contains explainOption then
    idAfter ((arguments.dropWhile (· != explainOption)).drop 1)
  else pathAndFormat none none arguments

/-! ### Running -/

/-- The version. -/
def versionText : Text := "0.1.0"

/-- The help text. -/
def helpText : Text := Text.unlines [
  "gdparse - Parse GDScript files",
  "",
  "Usage: gdparse [options] <path>",
  "",
  "  <path> may be a .gd file, whose tree is printed, or a directory, whose",
  "  scripts are each reported as OK or ERROR.",
  "",
  "Options:",
  "  --format <fmt>   Tree output: debug (default) or json",
  "  --explain <id>   Show documentation for an error ID (e.g. GDS-P002)",
  "  -h, --help       Show this help message",
  "  -v, --version    Show version number"]

/-- How a run ends. -/
inductive Status where
  /-- All is well. -/
  | success
  /-- Something is wrong. -/
  | failure
deriving DecidableEq, Repr

/-- The exit code of a status. -/
def Status.code : Status → UInt32
  | .success => 0
  | .failure => 1

/-- The options of a run, given the settings and the format among the arguments. -/
def options (settings : Settings) (format : Option OutputFormat) : Batch.Options where
  extension := settings.extension
  depth := some settings.depth
  format := format.getD settings.format

variable {m : Type → Type} [Monad m]

/-- Writes the text of an error. -/
def complain (host : Host m) (text : Text) : m Status := do
  host.complain text
  return .failure

/-- Writes a text. -/
def answer (host : Host m) (text : Text) : m Status := do
  host.write text
  return .success

/-- Runs over a path. -/
def runPath (reader : Document.Reader) (host : Host m) (path : Text)
    (format : Option OutputFormat) : m Status := do
  match ← Settings.load reader host with
  | .error e => complain host e.message
  | .ok settings =>
    match ← Batch.run host path (options (settings.getD Settings.default) format) with
    | .error f => complain host f.report
    | .ok result => return if result.hasFailed then .failure else .success

/-- Does what a command asks for. -/
def run (reader : Document.Reader) (host : Host m) : Command → m Status
  | .help => answer host helpText
  | .version => answer host versionText
  | .explain id =>
    match Code.explain id with
    | some text => answer host text
    | none => complain host ("Unknown error ID: " ++ id)
  | .parse path format => runPath reader host path format

end Command

/-- Does what some arguments ask for. -/
def runArguments {m : Type → Type} [Monad m] (reader : Document.Reader) (host : Host m)
    (arguments : List Text) : m Command.Status :=
  match Command.ofArguments arguments with
  | .error e => Command.complain host e.message
  | .ok command => command.run reader host

end GDScript
