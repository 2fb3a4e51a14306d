import GDScript.Files.Path

/-!
# Directory trees

A directory holds files, directories and symbolic links under names. What it lists goes depth first
through the entries of every directory in the order of their names, and passes links by
(`Directory.filesBelow`). How paths lead through such a tree is told in `Disk`.
-/

namespace GDScript

/-- What stands under a name in a directory. -/
inductive Entry where
  /-- A file with its bytes. -/
  | file (bytes : List UInt8)
  /-- A directory with its entries. -/
  | directory (entries : List (Text × Entry))
  /-- A symbolic link to a path. -/
  | link (target : Text)
deriving Repr, Inhabited

/-- The entries of a directory under their names, in any order. -/
abbrev Directory := List (Text × Entry)

namespace Directory

/-- Entries in the order of their names. -/
def inOrder (entries : Directory) : Directory :=
  entries.mergeSort fun a b => Text.lessEq a.1 b.1

mutual

/-- The entry with the entries below it in the order of their names. -/
def sortEntry : Entry → Entry
  | .file bytes => .file bytes
  | .link target => .link target
  | .directory entries => .directory (inOrder (sortEntries entries))

/-- Some entries, each with the entries below it in the order of their names. -/
def sortEntries : List (Text × Entry) → List (Text × Entry)
  | [] => []
  | (name, entry) :: rest => (name, sortEntry entry) :: sortEntries rest

end

/-- A directory with the entries at every depth in the order of their names. -/
def sorted (entries : Directory) : Directory := inOrder (sortEntries entries)

mutual

/-- The files at or below an entry of a directory at a path, whose names end in an extension. -/
def filesAt (path extension name : Text) : Entry → List Text
  | .file _ => if List.isSuffixOf extension name then [Path.join path name] else []
  | .directory entries => filesBelow (Path.join path name) extension entries
  | .link _ => []

/-- The files below a directory at a path, whose names end in an extension. -/
def filesBelow (path extension : Text) : List (Text × Entry) → List Text
  | [] => []
  | (name, entry) :: rest => filesAt path extension name entry ++ filesBelow path extension rest

end

end Directory

end GDScript
