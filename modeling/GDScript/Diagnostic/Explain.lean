import GDScript.Diagnostic.Code
import GDScript.Text.Trim

/-!
# The documentation of a code

`Code.documentation` is the text shown for a code: a heading, then the cause, the resolution and the
examples as far as the definition has them.
-/

namespace GDScript

namespace Code

/-- A titled part of the documentation. -/
def part (title : Text) : Option Text → List Text
  | none => []
  | some body => [title, "  " ++ body, []]

/-- The lines that show an example. -/
def exampleLines (e : Example) : List Text :=
  let indented (line : Text) : Text := "    " ++ line
  ("  " ++ e.description) :: [] :: (e.code.lines.map indented ++ [[]])

/-- The documentation of a code. -/
def documentation (code : Code) : Text :=
  let d := code.definition
  let heading : List Text := [d.id ++ ": " ++ d.description, []]
  let examples : List Text :=
    if d.examples.isEmpty then [] else "Examples:" :: d.examples.flatMap exampleLines
  Text.trimEnd (Text.unlines
    (heading ++ part "Cause:" d.cause ++ part "Resolution:" d.resolution ++ examples))

/-- The documentation of the code with the given identifier. -/
def explain (id : Text) : Option Text := (ofId? id).map documentation

end Code

end GDScript
