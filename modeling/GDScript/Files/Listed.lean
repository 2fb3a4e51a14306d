import GDScript.Files.Host

/-!
# Listed files

Files given as a list of paths with their texts. A directory is what stands before a slash in one of
the paths; some files may be unreadable, and some directories may refuse to be listed.
-/

namespace GDScript

/-- Paths with their texts. -/
structure ListedFiles where
  /-- The paths, each with its text. -/
  texts : List (Text × Text)
  /-- The files that cannot be read. -/
  unreadable : List Text
  /-- The directories that cannot be listed. -/
  unlistable : List Text

namespace ListedFiles

/-- Why a path cannot be read or listed. -/
def denied : Text := "permission denied"

/-- The path lies below a directory. -/
def isBelow (root path : Text) : Bool := (root ++ [CodeUnit.slash]).isPrefixOf path

/-- The files of the list; a directory lists them in the order of the list. -/
def files (l : ListedFiles) : Files where
  kind path :=
    if l.texts.any fun entry => entry.1 == path then .ok .file
    else if l.texts.any fun entry => isBelow path entry.1 then .ok .directory
    else .ok .missing
  list root extension :=
    if l.unlistable.contains root then .error denied
    else .ok ((l.texts.map Prod.fst).filter fun path =>
      isBelow root path && List.isSuffixOf extension path)
  read path :=
    match l.texts.lookup path with
    | some text => if l.unreadable.contains path then .error denied else .ok text
    | none => .error denied

end ListedFiles

end GDScript
