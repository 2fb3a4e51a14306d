import GDScript.Files.Host
import GDScript.Grammar.Language
import GDScript.Render.Format

/-!
# Reading files

A run over a path reads one script and writes its tree, or reads every script below a directory and
writes a line about each. What is wrong with one script of a directory is reported and does not stop
the run; any other failure would end it.
-/

namespace GDScript

namespace Batch

/-- How scripts are found, read and shown. -/
structure Options where
  /-- The end of the names of script files. -/
  extension : Text
  /-- So many rules may be active at a time; there is a default. -/
  depth : Option Int
  /-- How the tree of a single script is shown. -/
  format : OutputFormat

/-- The options that hold where none are given. -/
def Options.default : Options := ⟨".gd", none, .debug⟩

instance : Inhabited Options := ⟨Options.default⟩

/-- What became of a script. -/
structure Report where
  /-- The path of the script. -/
  path : Text
  /-- The script, or what is wrong with it. -/
  result : Except Failure Block

namespace Report

/-- What is said about a script that cannot be read. -/
def detailOf : Failure → Text
  | .fileParse _ detail _ => detail
  | f => (f.diagnostic?.map fun d => d.data.message).getD f.text

/-- What is said about a script, if something is wrong with it. -/
def detail (r : Report) : Option Text :=
  match r.result with
  | .ok _ => none
  | .error f => some (detailOf f)

/-- The line about a path, with what is wrong with it. -/
def lineFor (path : Text) : Option Text → Text
  | none => path ++ ":OK"
  | some detail => path ++ ":ERROR: " ++ detail

/-- The line about a script. -/
def line (r : Report) : Text := lineFor r.path r.detail

/-- Something is wrong with the script. -/
def hasFailed (r : Report) : Bool := r.detail.isSome

/-- What is wrong is about a script alone: it does not parse, or it cannot be read. -/
def isAboutScript : Failure → Bool
  | .fileParse .. | .internal _ => true
  | _ => false

/-- The failure that the run over a directory ends with, where it is not about a script alone. -/
def escaped (r : Report) : Option Failure :=
  match r.result with
  | .ok _ => none
  | .error f => if isAboutScript f then none else some f

end Report

/-- What a run over a path leads to. -/
inductive Result where
  /-- The path names a script. -/
  | script (tree : Block)
  /-- The path names a directory. -/
  | directory (reports : List Report)

/-- Something is wrong with a script of a directory. -/
def Result.hasFailed : Result → Bool
  | .script _ => false
  | .directory reports => reports.any Report.hasFailed

/-- Reads the text of a file as a script. -/
def parseText (path source : Text) (options : Options) : Except Failure Block :=
  match Script.parse source options.depth with
  | .ok tree => .ok tree
  | .error (.parse e) => .error (.fileParse path e.trace (some e))
  | .error f => .error f

/-- The failure to read a file. -/
def unreadable (path reason : Text) : Failure :=
  .internal ("Cannot read " ++ path ++ ": " ++ reason)

variable {m : Type → Type} [Monad m]

/-- Reads the script in a file. -/
def readScript (host : Host m) (path : Text) (options : Options) : m (Except Failure Block) := do
  match ← host.read path with
  | .error reason => return .error (unreadable path reason)
  | .ok source => return parseText path source options

/-- Reads the script in a file and writes its tree. -/
def runFile (host : Host m) (path : Text) (options : Options) : m (Except Failure Block) := do
  match ← readScript host path options with
  | .error f => return .error f
  | .ok tree =>
    host.write (options.format.render tree)
    return .ok tree

/-- Reads the scripts at some paths and writes a line about each. -/
def runAll (host : Host m) (options : Options) : List Text → m (Except Failure (List Report))
  | [] => return .ok []
  | path :: rest => do
    let report : Report := ⟨path, ← readScript host path options⟩
    match report.escaped with
    | some f => return .error f
    | none =>
      host.write report.line
      return (← runAll host options rest).map (report :: ·)

/-- Reads every script below a directory and writes a line about each. -/
def runDirectory (host : Host m) (path : Text) (options : Options) :
    m (Except Failure (List Report)) := do
  match ← host.list path options.extension with
  | .error _ => return .error (.missingPath path)
  | .ok paths => runAll host options paths

/-- Reads the script, or every script below the directory, that a path names. -/
def run (host : Host m) (path : Text) (options : Options) : m (Except Failure Result) := do
  match ← host.kind path with
  | .ok .directory => return (← runDirectory host path options).map .directory
  | .ok .file => return (← runFile host path options).map .script
  | .ok .missing => return .error (.missingPath path)
  | .error reason => return .error (.error reason)

end Batch

end GDScript
