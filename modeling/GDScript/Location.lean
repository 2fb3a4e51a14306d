import GDScript.Text.Numeral

/-!
# Locations

A location names a place between two code units: line and column count from one, the offset from
zero. Reading a unit moves the location by `Location.after`; only a line feed starts a new line.
-/

namespace GDScript

/-- A place in a text. -/
structure Location where
  /-- The line, counted from one. -/
  line : Nat
  /-- The column, counted in code units from one. -/
  column : Nat
  /-- The number of code units before the place. -/
  offset : Nat
deriving DecidableEq, Repr, Inhabited

/-- A stretch of text. -/
structure Span where
  /-- Where the stretch starts. -/
  start : Location
  /-- Where the stretch ends; the unit there does not belong to it. -/
  stop : Location
deriving DecidableEq, Repr, Inhabited

namespace Location

/-- The place before the first unit of a text. -/
def first : Location := ⟨1, 1, 0⟩

/-- The place just behind a unit that stands at `l`. -/
def after (l : Location) (u : CodeUnit) : Location :=
  if u == CodeUnit.lineFeed then ⟨l.line + 1, 1, l.offset + 1⟩
  else ⟨l.line, l.column + 1, l.offset + 1⟩

@[simp] theorem offset_after (l : Location) (u : CodeUnit) :
    (l.after u).offset = l.offset + 1 := by
  unfold after; split <;> rfl

/-- The form `line:column` of a line and a column. -/
def lineColumn (line column : Int) : Text := Text.ofInt line ++ ":" ++ Text.ofInt column

/-- The form `line:column` of a location. -/
def format (l : Location) : Text := lineColumn l.line l.column

end Location

end GDScript
