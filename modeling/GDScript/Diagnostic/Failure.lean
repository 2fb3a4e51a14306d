import GDScript.Diagnostic.Code
import GDScript.Location

/-!
# Failures

A diagnostic is a code with its message and, where there is one, a location. A parse error adds the
frames of the grammar rules that were active when it arose. `Failure` gathers everything that can go
wrong, and `Failure.report` is what is shown for it.
-/

namespace GDScript

/-- A reported condition. -/
structure Diagnostic where
  /-- The condition. -/
  code : Code
  /-- The message, without the location. -/
  message : Text
  /-- Where the condition arose. -/
  location : Option Location
  /-- The values that the message reports. -/
  arguments : Option Arguments
deriving DecidableEq, Repr

namespace Diagnostic

/-- The diagnostic of a code, with the message of its template. -/
def create (code : Code) (arguments : Arguments) (location : Option Location) : Diagnostic :=
  ⟨code, code.message arguments, location, some arguments⟩

/-- The suffix ` at line:column` of a message. -/
def place : Option Location → Text
  | none => []
  | some l => " at " ++ l.format

/-- The message followed by the location. -/
def text (d : Diagnostic) : Text := d.message ++ place d.location

/-- A text without the ` at digits:digits` at its very end, if it ends so. -/
def withoutPlace (t : Text) : Text :=
  let column := t.reverse.span CodeUnit.isDigit
  match column.2 with
  | 0x3A :: before =>
    let line := before.span CodeUnit.isDigit
    match line.2 with
    | 0x20 :: 0x74 :: 0x61 :: 0x20 :: rest =>
      if column.1.isEmpty || line.1.isEmpty then t else rest.reverse
    | _ => t
  | _ => t

/-- What a host is given of a diagnostic: its text without the place at the end. -/
def data (d : Diagnostic) : Diagnostic := { d with message := withoutPlace d.text }

/-- The text shown for a diagnostic, or what the host's formatter makes of its data. -/
def format (d : Diagnostic) (formatter : Option (Diagnostic → Text)) : Text :=
  match formatter with
  | some f => f d.data
  | none => d.text

end Diagnostic

/-- A grammar rule that was active, and where it started. -/
structure Frame where
  /-- The name of the rule. -/
  label : Text
  /-- Where it started. -/
  location : Location
deriving DecidableEq, Repr

/-- A failure of the grammar. -/
structure ParseError where
  /-- The condition. -/
  code : Code
  /-- The message, without the location. -/
  message : Text
  /-- Where the failure arose. -/
  location : Location
  /-- The rules that were active, innermost first. -/
  frames : List Frame
  /-- The values that the message reports. -/
  arguments : Option Arguments
  /-- Another alternative may be tried after the failure. -/
  recoverable : Bool
deriving DecidableEq, Repr

namespace ParseError

/-- The error as a diagnostic. -/
def diagnostic (e : ParseError) : Diagnostic := ⟨e.code, e.message, some e.location, e.arguments⟩

/-- The message followed by the location. -/
def text (e : ParseError) : Text := e.diagnostic.text

/-- The names of the active rules, outermost first. -/
def labels (e : ParseError) : List Text := e.frames.reverse.map Frame.label

/-- The line that reports a frame. -/
def frameLine (frame : Frame) : Text :=
  "  while parsing " ++ frame.label ++ " at " ++ frame.location.format

/-- The text, followed by one line per frame, innermost first. -/
def detail (e : ParseError) : Text := Text.unlines (e.text :: e.frames.map frameLine)

/-- A chain of more than this many labels is shortened. -/
def longestChain : Nat := 32

/-- A shortened chain keeps so many labels at its outer end. -/
def outerLabels : Nat := 8

/-- A shortened chain keeps so many labels at its inner end. -/
def innerLabels : Nat := 16

/-- A chain of labels, its middle left out when it is long. -/
def shorten (labels : List Text) : List Text :=
  if labels.length ≤ longestChain then labels
  else
    let omitted := labels.length - outerLabels - innerLabels
    labels.take outerLabels ++ ("... " ++ Text.ofNat omitted ++ " more ...")
      :: labels.drop (labels.length - innerLabels)

/-- The chain of labels and the text on one line. -/
def trace (e : ParseError) : Text :=
  if e.frames.isEmpty then e.text
  else Text.join " > " (shorten e.labels) ++ ": " ++ e.text

end ParseError

/-- A request that names a code wrongly. -/
inductive Misuse where
  /-- No code is given. -/
  | missingCode
  /-- There is no such code. -/
  | unknownCode (id : Text)
  /-- The code is of another category than the allowed ones. -/
  | wrongCategory (allowed : List Category) (id : Text)
deriving DecidableEq, Repr

/-- The message of a misuse. -/
def Misuse.message : Misuse → Text
  | .missingCode => "errorId is required"
  | .unknownCode id => "Unknown error ID: " ++ id
  | .wrongCategory allowed id =>
    "Expected " ++ Text.join " or " (allowed.map Category.name) ++ " error ID, got: " ++ id

/-- The code with an identifier, of one of the allowed categories. -/
def Code.require (allowed : List Category) (id : Text) : Except Misuse Code :=
  match Code.ofId? id with
  | none => .error (.unknownCode id)
  | some code => if code.category ∈ allowed then .ok code else .error (.wrongCategory allowed id)

/-- Whatever can go wrong. -/
inductive Failure where
  /-- A plain message. -/
  | error (message : Text)
  /-- A diagnostic of any code. -/
  | diagnostic (d : Diagnostic)
  /-- A malformed literal. -/
  | lexical (d : Diagnostic)
  /-- A failure of the grammar. -/
  | parse (e : ParseError)
  /-- A path that names neither a file nor a directory. -/
  | missingPath (path : Text)
  /-- A file that does not parse. -/
  | fileParse (path detail : Text) (cause : Option ParseError)
  /-- A broken invariant, or a file that cannot be read. -/
  | internal (message : Text)
  /-- A request that names a code wrongly. -/
  | misuse (m : Misuse)
deriving Repr

namespace Failure

/-- The diagnostic of a failure that has a code. -/
def diagnostic? : Failure → Option Diagnostic
  | .error _ | .misuse _ => none
  | .diagnostic d | .lexical d => some d
  | .parse e => some e.diagnostic
  | .missingPath path =>
    some (Diagnostic.create .missingPath [("path", .text path)] none)
  | .fileParse path detail _ =>
    some { Diagnostic.create .fileParse [("path", .text path), ("detail", .text detail)] none with
      arguments := some [("path", .text path)] }
  | .internal message =>
    some (Diagnostic.create .internalError [("message", .text message)] none)

/-- The text of a failure. -/
def text (f : Failure) : Text :=
  match f with
  | .error message => message
  | .misuse m => m.message
  | _ => (f.diagnostic?.map Diagnostic.text).getD []

/-- What is shown for a failure: its text, and below it the frames of a grammar failure. -/
def report : Failure → Text
  | .fileParse path detail (some cause) =>
    Text.unlines ((Failure.fileParse path detail none).text :: (Text.lines cause.detail).drop 1)
  | .parse e => e.detail
  | f => f.text

end Failure

end GDScript
