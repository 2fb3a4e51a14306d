import GDScript.Files.Directory
import GDScript.Files.Host
import GDScript.Text.Utf8

/-!
# Disks

A disk is a directory tree together with the place of the working directory in it. A path leads from
the root of the tree, by way of the working directory unless it is absolute, and is followed part by
part, through links too: `..` is the directory above the one that has been reached, and above the root
is the root. `Disk.list` finds the files below a directory by opening each directory in it under a path
of its own, in which `..` has been resolved by the names alone.
-/

namespace GDScript

/-- Why a path cannot be opened. -/
inductive Obstacle where
  /-- Nothing stands there. -/
  | missing
  /-- Something other than a directory stands where one is needed. -/
  | notDirectory
  /-- A directory stands where a file is needed. -/
  | isDirectory
  /-- Links lead to links too often. -/
  | tooManyLinks
deriving DecidableEq, Repr

/-- The text of an obstacle. -/
def Obstacle.text : Obstacle → Text
  | .missing => "ENOENT: no such file or directory"
  | .notDirectory => "ENOTDIR: not a directory"
  | .isDirectory => "EISDIR: illegal operation on a directory"
  | .tooManyLinks => "ELOOP: too many symbolic links encountered"

/-- The text of an obstacle that was met when something was done with a path. -/
def Obstacle.reason (o : Obstacle) (action path : Text) : Text :=
  o.text ++ ", " ++ action ++ " '" ++ path ++ "'"

/-- A directory tree and a place in it. -/
structure Disk where
  /-- The directory at the root. -/
  root : Directory
  /-- The names that lead from the root to the working directory; none of them is one of a link. -/
  working : List Text

namespace Disk

/-! ### Following a path -/

/-- How far a path leads without a link. -/
inductive Walk where
  /-- To an entry. -/
  | arrived (entry : Entry)
  /-- Nowhere. -/
  | blocked (obstacle : Obstacle)
  /-- To a link in a directory below the given ones, from where these parts are to be followed. -/
  | linked (here : Directory) (above : List Directory) (parts : List Text)

/--
Follows the parts of a path from a directory with the given ones above it, the nearest one first. The
root is the directory that absolute links begin at.
-/
def walk (root here : Directory) (above : List Directory) : List Text → Walk
  | [] => .arrived (.directory here)
  | part :: rest =>
    if part.isEmpty || part == Path.here then walk root here above rest
    else if part == Path.above then
      match above with
      -- nothing is above the root, so a step outward stays there
      | [] => walk root here [] rest
      | outer :: more => walk root outer more rest
    else match here.lookup part with
      | none => .blocked .missing
      | some (.directory entries) => walk root entries (here :: above) rest
      | some (.file bytes) =>
        if rest.isEmpty then .arrived (.file bytes) else .blocked .notDirectory
      | some (.link target) =>
        -- the names of the target take the place of the link
        if Path.isAbsolute target then .linked root [] (Path.parts target ++ rest)
        else .linked here above (Path.parts target ++ rest)

/-- So many links may be met on the way along a path. -/
def longestChain : Nat := 40

/-- Follows the parts of a path through at most so many links. -/
def follow (root : Directory) :
    Nat → Directory → List Directory → List Text → Except Obstacle Entry
  | links, here, above, parts =>
    match walk root here above parts with
    | .arrived entry => .ok entry
    | .blocked obstacle => .error obstacle
    | .linked here above parts =>
      match links with
      | 0 => .error .tooManyLinks
      | links + 1 => follow root links here above parts

/-- The names that lead from the root to where a path begins. -/
def origin (disk : Disk) (path : Text) : List Text :=
  if Path.isAbsolute path then [] else disk.working

/-- What a path names. -/
def find (disk : Disk) (path : Text) : Except Obstacle Entry :=
  if path.isEmpty then .error .missing
  else follow disk.root longestChain disk.root [] (disk.origin path ++ Path.parts path)

/-! ### Listing -/

/-- The entries of the directory that a path names, or why it cannot be listed. -/
def entriesAt (disk : Disk) (path : Text) : Except Text Directory :=
  match disk.find path with
  | .ok (.directory entries) => .ok entries
  | .ok _ => .error (Obstacle.notDirectory.reason "scandir" path)
  | .error obstacle => .error (obstacle.reason "scandir" path)

/--
The files at or below an entry of the directory at a path. A directory is opened by its own path, in
which `..` has been resolved without regard to links. The directories below it are found under their
paths by then, so that its tree can be listed as it stands (`Disk.list_eq_bind`).
-/
def listEntry (disk : Disk) (path extension name : Text) : Entry → Except Text (List Text)
  | .directory _ => do
    let entries ← disk.entriesAt (Path.join path name)
    return Directory.filesBelow (Path.join path name) extension entries.sorted
  | entry => .ok (Directory.filesAt path extension name entry)

/-- The files below the directory at a path, whose names end in an extension. -/
def list (disk : Disk) (path extension : Text) : Except Text (List Text) := do
  let entries ← disk.entriesAt path
  let found ← entries.inOrder.mapM fun (name, entry) => disk.listEntry path extension name entry
  return found.flatten

/-! ### The disk as files -/

/-- What a path names, or why this cannot be told; nothing stands there if a part of it is missing. -/
def kind (disk : Disk) (path : Text) : Except Text PathKind :=
  match disk.find path with
  | .ok (.file _) => .ok .file
  | .ok (.directory _) => .ok .directory
  | .ok (.link _) => .ok .missing
  | .error .tooManyLinks => .error (Obstacle.tooManyLinks.reason "stat" path)
  | .error _ => .ok .missing

/-- The text of the file that a path names, or why it cannot be read. -/
def read (disk : Disk) (path : Text) : Except Text Text :=
  match disk.find path with
  | .ok (.file bytes) => .ok (Text.ofUtf8 bytes)
  | .ok _ => .error (Obstacle.isDirectory.text ++ ", read")
  | .error obstacle => .error (obstacle.reason "open" path)

/-- The files of a disk. -/
def files (disk : Disk) : Files := ⟨disk.kind, disk.list, disk.read⟩

end Disk

end GDScript
