import GDScript.CommandLine
import GDScript.Files.Disk
import GDScript.Text.Surrogate

/-!
# The program

The host that answers from the disk of the machine and writes to the standard streams, and the
program, which is run with a reader of documents.
-/

namespace GDScript

/-- The name of a path as the operating system is given it. -/
def osPath (path : Text) : String := Text.toStringLossy path

/-- Why an action on a path has failed. -/
def reasonOnDisk (action path : Text) : IO.Error → Text
  | .noFileOrDirectory _ _ _ => Obstacle.missing.reason action path
  | error => Text.ofString error.toString

/-- What a path names once its links have been followed, or why this cannot be told. -/
def kindOnDisk (path : Text) : IO (Except Text PathKind) := do
  let place : IO.FS.DirEntry := ⟨osPath path, ""⟩
  try
    match (← place.root.metadata).type with
    | .dir => return .ok .directory
    | .file => return .ok .file
    | _ => return .ok .missing
  catch
    | .noFileOrDirectory _ _ _ | .inappropriateType _ _ _ => return .ok .missing
    | error => return .error (reasonOnDisk "stat" path error)

/--
The files below the directory at a path, whose names end in an extension. Each directory is opened by
its own path.
-/
partial def listOnDisk (path extension : Text) : IO (List Text) := do
  let place : IO.FS.DirEntry := ⟨osPath path, ""⟩
  let names := (← place.root.readDir).toList.map fun entry => (Text.ofString entry.fileName, entry)
  let found ← (names.mergeSort fun a b => Text.lessEq a.1 b.1).mapM fun (name, entry) => do
    match (← entry.path.symlinkMetadata).type with
    | .dir => listOnDisk (Path.join path name) extension
    | .file => return if List.isSuffixOf extension name then [Path.join path name] else []
    | _ => return []
  return found.flatten

/-- The host that answers from the disk and writes to the standard streams. -/
def Host.disk : Host IO where
  kind := kindOnDisk
  list path extension := do
    try return .ok (← listOnDisk path extension)
    catch error => return .error (reasonOnDisk "scandir" path error)
  read path := do
    try
      let bytes ← IO.FS.readBinFile (osPath path)
      return .ok (Text.ofUtf8 bytes.toList)
    catch error => return .error (reasonOnDisk "open" path error)
  write line := IO.println line.toStringLossy
  complain line := IO.eprintln line.toStringLossy
  warn warning := IO.eprintln warning.toStringLossy

/-- Runs the program with its arguments; the exit code is given back. -/
def program (reader : Document.Reader) (arguments : List String) : IO UInt32 := do
  let status ← runArguments reader Host.disk (arguments.map Text.ofString)
  return status.code

end GDScript
