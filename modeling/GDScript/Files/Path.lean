import GDScript.Text.Basic

/-!
# Paths

A path is a sequence of names with slashes between them. `Path.normalize` resolves `.` and `..` as
far as the path alone tells; a slash at either end is kept.
-/

namespace GDScript

namespace Path

/-- The parts of a path between its slashes. -/
def parts : Text → List Text
  | [] => [[]]
  | u :: rest =>
    if u == CodeUnit.slash then [] :: parts rest
    else match parts rest with
      | [] => [[u]]
      | part :: more => (u :: part) :: more

/-- The name of the same directory. -/
def here : Text := "."

/-- The name of the directory above. -/
def above : Text := ".."

/-- Names joined with slashes. -/
def ofParts (names : List Text) : Text := Text.join [CodeUnit.slash] names

/-- A path that begins at the root. -/
def isAbsolute (path : Text) : Bool := path.head? == some CodeUnit.slash

/--
Adds a part to the names that have been resolved, given innermost first: nothing is added for the
same directory, and the directory above takes a name away. Above the root is the root.
-/
def enter (absolute : Bool) (names : List Text) (part : Text) : List Text :=
  if part.isEmpty || part == here then names
  else if part == above then
    match names with
    | [] => if absolute then [] else [above]
    | name :: outer => if name == above then above :: names else outer
  else part :: names

/-- The same path without superfluous parts; the empty path is the same directory. -/
def normalize (path : Text) : Text :=
  let absolute := isAbsolute path
  let root : Text := if absolute then [CodeUnit.slash] else []
  let trailing : Text := if path.getLast? == some CodeUnit.slash then [CodeUnit.slash] else []
  match (parts path).foldl (enter absolute) [] with
  | [] => if absolute then root else here ++ trailing
  | names => root ++ ofParts names.reverse ++ trailing

/-- The path of a name in a directory. -/
def join (directory name : Text) : Text :=
  if directory.isEmpty then normalize name
  else normalize (directory ++ CodeUnit.slash :: name)

end Path

end GDScript
