import GDScript.Render.Debug
import GDScript.Render.Json

/-!
# Output formats

The two renderings of a script, and the names by which they are asked for.
-/

namespace GDScript

/-- A rendering of a script. -/
inductive OutputFormat where
  /-- One line of text for every node of the tree. -/
  | debug
  /-- A JSON document. -/
  | json
deriving DecidableEq, Repr, Inhabited

namespace OutputFormat

/-- The name of a format. -/
def name : OutputFormat → Text
  | .debug => "debug"
  | .json => "json"

/-- The format with the given name. -/
def ofName? (t : Text) : Option OutputFormat :=
  if t == debug.name then some debug else if t == json.name then some json else none

theorem ofName?_name (f : OutputFormat) : ofName? f.name = some f := by
  cases f <;> decide

theorem name_of_ofName? {t : Text} {f : OutputFormat} (h : ofName? t = some f) : t = f.name := by
  unfold ofName? at h
  split at h
  · simp_all
  · split at h <;> simp_all

/-- The rendering of a script in a format. -/
def render : OutputFormat → Block → Text
  | .debug => Debug.render
  | .json => Json.render

end OutputFormat

end GDScript
