import GDScript.Binary64.Basic
import GDScript.Text.Basic

/-!
# Literals

A literal keeps its spelling beside its value.
-/

namespace GDScript

/-- An integer literal. -/
structure IntLiteral where
  /-- The number. -/
  value : Nat
  /-- How it is spelled. -/
  raw : Text
deriving DecidableEq, Repr

/-- A literal with a decimal point. -/
structure FloatLiteral where
  /-- The double nearest to the number. -/
  value : Binary64
  /-- How it is spelled. -/
  raw : Text
deriving DecidableEq, Repr

/-- The delimiter of a string. -/
inductive Quote where
  | single
  | double
deriving DecidableEq, Repr

namespace Quote

/-- The delimiter as a unit of text. -/
def unit : Quote → CodeUnit
  | .single => CodeUnit.singleQuote
  | .double => CodeUnit.doubleQuote

/-- The delimiter that a unit is. -/
def ofUnit? (u : CodeUnit) : Option Quote :=
  if u == CodeUnit.singleQuote then some .single
  else if u == CodeUnit.doubleQuote then some .double
  else none

theorem ofUnit?_unit (q : Quote) : ofUnit? q.unit = some q := by
  cases q <;> rfl

end Quote

/-- A string literal. -/
structure StringLiteral where
  /-- What stands between the quotes, escapes as they are written. -/
  body : Text
  /-- The delimiter. -/
  quote : Quote
deriving DecidableEq, Repr

/-- The literal as it is written. -/
def StringLiteral.write (s : StringLiteral) : Text := s.quote.unit :: s.body ++ [s.quote.unit]

end GDScript
