import GDScript.Text.Basic

/-!
# The surroundings of a run

A run asks its host for the kinds, the listings and the contents of paths, and hands it the lines it
writes. `Files` answers such questions without any effect, and `Files.host` is the host that answers
from it and keeps a transcript of the run. What goes to the error stream (`Transcript.errors`) are the
complaints of the run and the warnings of the readers that it calls.
-/

namespace GDScript

/-- What a path names. -/
inductive PathKind where
  /-- A file. -/
  | file
  /-- A directory. -/
  | directory
  /-- Neither of the two. -/
  | missing
deriving DecidableEq, Repr

/-- What a run may ask and do. -/
structure Host (m : Type → Type) where
  /-- What a path names, or why this cannot be told. -/
  kind : Text → m (Except Text PathKind)
  /-- The files below a directory whose names end in an extension, or why they cannot be listed. -/
  list : (root extension : Text) → m (Except Text (List Text))
  /-- The text of a file, or why it cannot be read. -/
  read : Text → m (Except Text Text)
  /-- Writes a line of the result. -/
  write : Text → m Unit
  /-- Writes a line that tells what went wrong. -/
  complain : Text → m Unit
  /-- Passes on a warning that a reader gives; it belongs with what went wrong. -/
  warn : Text → m Unit

/-- Files as they stand. -/
structure Files where
  /-- What a path names, or why this cannot be told. -/
  kind : Text → Except Text PathKind
  /-- The files below a directory whose names end in an extension, or why they cannot be listed. -/
  list : (root extension : Text) → Except Text (List Text)
  /-- The text of a file, or why it cannot be read. -/
  read : Text → Except Text Text

/-- What a run has done, each list in the order of time. -/
structure Transcript where
  /-- The paths that have been read, or tried to be. -/
  reads : List Text
  /-- The lines of the result. -/
  outputs : List Text
  /-- The lines that tell what went wrong. -/
  complaints : List Text
  /-- The warnings that readers have given. -/
  warnings : List Text
deriving DecidableEq, Repr

namespace Transcript

/-- Nothing has been done. -/
def empty : Transcript := ⟨[], [], [], []⟩

/-- What has gone to the error stream; how warnings and complaints take turns is not kept. -/
def errors (t : Transcript) : List Text := t.warnings ++ t.complaints

end Transcript

namespace Files

/-- The host that answers from the given files and keeps a transcript. -/
def host (files : Files) : Host (StateM Transcript) where
  kind path := return files.kind path
  list root extension := return files.list root extension
  read path := do
    modify fun t => { t with reads := t.reads ++ [path] }
    return files.read path
  write line := modify fun t => { t with outputs := t.outputs ++ [line] }
  complain line := modify fun t => { t with complaints := t.complaints ++ [line] }
  warn warning := modify fun t => { t with warnings := t.warnings ++ [warning] }

end Files

end GDScript
