import GDScript.Document
import GDScript.Files.Host
import GDScript.Grammar.Basic
import GDScript.Render.Format

/-!
# Settings

A settings file may give the extension of script files, the depth limit and the output format. What
it does not give has its default. `Settings.ofDocument` checks the contents of such a file, the members
in this order, and `Settings.load` reads the file of the working directory. The document that stands in
it is the affair of a reader that is brought along; its warnings are passed on.
-/

namespace GDScript

/-- How scripts are found, read and shown. -/
structure Settings where
  /-- The extension of script files, which begins with a dot. -/
  extension : Text
  /-- So many rules may be active at a time. -/
  depth : Nat
  /-- How the tree of a script is shown. -/
  format : OutputFormat
  /-- The extension begins with a dot. -/
  dotted : extension.head? = some CodeUnit.dot
  /-- At least one rule may be active. -/
  depth_pos : 1 ≤ depth
  /-- The depth is not above the greatest one. -/
  depth_le : depth ≤ Grammar.greatestDepth
deriving DecidableEq, Repr

/-- Why there are no settings. -/
inductive SettingsError where
  /-- The file cannot be read. -/
  | unreadable (reason : Text)
  /-- The file holds no document. -/
  | malformed (reason : Text)
  /-- The document is no mapping. -/
  | notMapping
  /-- A member has a name that is none of the settings. -/
  | unknownKey (key : Text)
  /-- The extension is no text, or an empty one. -/
  | extension
  /-- The depth is no positive integer. -/
  | depthNotPositive
  /-- The depth is above the greatest one. -/
  | depthTooGreat
  /-- The format is none of the two; its text is given. -/
  | format (shown : Text)
  /-- The format is none of the two and has no text. -/
  | formatWithoutText
deriving DecidableEq, Repr

namespace SettingsError

/-- The text about settings of which this is wrong. -/
def because (cause : Text) : Text := "Invalid configuration: " ++ cause

/-- The text of an error. Where a value has no text, nothing is told but that. -/
def message : SettingsError → Text
  | .unreadable reason => because ("failed to read file (" ++ reason ++ ")")
  | .malformed reason => because ("invalid YAML (" ++ reason ++ ")")
  | .notMapping => because "must be a mapping"
  | .unknownKey key => because ("unknown key " ++ key)
  | .extension => because "extension must be a non-empty string"
  | .depthNotPositive => because "maxDepth must be a positive integer"
  | .depthTooGreat => because ("maxDepth must not exceed " ++ Text.ofNat Grammar.greatestDepth)
  | .format shown =>
    because ("format has invalid value \"" ++ shown ++ "\" (must be '" ++ OutputFormat.debug.name
      ++ "' or '" ++ OutputFormat.json.name ++ "')")
  | .formatWithoutText => "Cannot convert object to primitive value"

end SettingsError

namespace Settings

/-- The name of the settings file. -/
def fileName : Text := ".gdparse.yaml"

/-- The settings that hold where none are given. -/
def default : Settings where
  extension := ".gd"
  depth := Grammar.defaultDepth
  format := .debug
  dotted := by decide
  depth_pos := by decide
  depth_le := by decide

instance : Inhabited Settings := ⟨default⟩

/-- The name of the extension among the members. -/
def extensionKey : Text := "extension"

/-- The name of the depth limit among the members. -/
def depthKey : Text := "maxDepth"

/-- The name of the format among the members. -/
def formatKey : Text := "format"

/-- The names that members may have. -/
def keys : List Text := [extensionKey, depthKey, formatKey]

/-- The text with a dot before it, unless it begins with one. -/
def withDot (t : Text) : Text := if t.head? = some CodeUnit.dot then t else CodeUnit.dot :: t

theorem head?_withDot (t : Text) : (withDot t).head? = some CodeUnit.dot := by
  unfold withDot
  split <;> simp_all

/-- Puts in the extension that a value gives. -/
def withExtension (value : Document) (s : Settings) : Except SettingsError Settings :=
  match value with
  | .text t =>
    if t.isEmpty then .error .extension
    else .ok { s with extension := withDot t, dotted := head?_withDot t }
  | _ => .error .extension

/-- Puts in the depth limit that a value gives. -/
def withDepth (value : Document) (s : Settings) : Except SettingsError Settings :=
  match value with
  | .number x =>
    match x.toInt? with
    | some n =>
      if positive : 1 ≤ n then
        if within : n.toNat ≤ Grammar.greatestDepth then
          .ok { s with depth := n.toNat, depth_pos := by omega, depth_le := within }
        else .error .depthTooGreat
      else .error .depthNotPositive
    | none => .error .depthNotPositive
  | _ => .error .depthNotPositive

/-- Puts in the format that a value names. -/
def withFormat (value : Document) (s : Settings) : Except SettingsError Settings :=
  let named := match value with
    | .text t => OutputFormat.ofName? t
    | _ => none
  match named with
  | some f => .ok { s with format := f }
  | none => .error ((value.display.map .format).getD .formatWithoutText)

/-- Puts in what a member gives, if there is a member of that name. -/
def withMember (members : List (Text × Document)) (key : Text)
    (put : Document → Settings → Except SettingsError Settings) (s : Settings) :
    Except SettingsError Settings :=
  match members.lookup key with
  | some value => put value s
  | none => .ok s

/-- The settings that a document gives. -/
def ofDocument : Document → Except SettingsError Settings
  | .null => .ok default
  | .mapping members =>
    match members.find? fun member => !keys.contains member.1 with
    | some (key, _) => .error (.unknownKey key)
    | none => do
      let s ← withMember members extensionKey withExtension default
      let s ← withMember members depthKey withDepth s
      withMember members formatKey withFormat s
  | _ => .error .notMapping

/-- The settings that a reader has come to. -/
def ofResult : Except Text Document → Except SettingsError Settings
  | .error reason => .error (.malformed reason)
  | .ok document => ofDocument document

variable {m : Type → Type} [Monad m]

/-- The text of the settings file of the working directory, or why it cannot be read, if there is one. -/
def readFile (host : Host m) : m (Option (Except Text Text)) := do
  match ← host.kind fileName with
  | .ok .file | .ok .directory => return some (← host.read fileName)
  | _ => return none

/-- The settings of the working directory, if there is a file that gives them. -/
def load (reader : Document.Reader) (host : Host m) : m (Except SettingsError (Option Settings)) := do
  match ← readFile host with
  | none => return .ok none
  | some (.error reason) => return .error (.unreadable reason)
  | some (.ok source) =>
    let reading := reader source
    reading.warnings.forM host.warn
    return (ofResult reading.result).map some

end Settings

end GDScript
