import GDScript.Cursor
import GDScript.Tree.Literal

/-!
# Numbers

An integer is a run of decimal digits, or `0x` and a run of hexadecimal digits; a float has digits
on both sides of a point. Each reader takes the longest run there is.
-/

namespace GDScript

namespace Text

/-- The run of digits at the start of a text. -/
def digits (t : Text) : Text := t.takeWhile CodeUnit.isDigit

/-- The integer literal at the start of a text, of any size. -/
def intLiteral? (t : Text) : Option IntLiteral :=
  let hex := (t.drop 2).takeWhile CodeUnit.isHexDigit
  if List.isPrefixOf "0x" t && !hex.isEmpty then some ⟨value 16 hex, "0x" ++ hex⟩
  else if t.digits.isEmpty then none
  else some ⟨value 10 t.digits, t.digits⟩

/-- The float literal at the start of a text. -/
def floatLiteral? (t : Text) : Option FloatLiteral :=
  let whole := t.digits
  match t.drop whole.length with
  | [] => none
  | u :: rest =>
    let fraction := digits rest
    if u == CodeUnit.dot && !whole.isEmpty && !fraction.isEmpty then
      some ⟨Binary64.ofDecimal (value 10 (whole ++ fraction)) (-fraction.length),
        whole ++ u :: fraction⟩
    else none

end Text

namespace Reader

/-- The greatest integer that a literal may denote. -/
def greatestInt : Nat := 0x7FFFFFFFFFFFFFFF

/-- An integer; one that does not fit in a signed 64-bit integer is complained about. -/
def int : Reader (Option IntLiteral) := fun t =>
  match t.intLiteral? with
  | none => .took none 0
  | some literal =>
    if literal.value ≤ greatestInt then .took (some literal) literal.raw.length
    else .fault ⟨.integerOutOfRange, [("value", .text literal.raw)], [], 0⟩

/-- A float. -/
def float : Reader (Option FloatLiteral) := fun t =>
  match t.floatLiteral? with
  | none => .took none 0
  | some literal => .took (some literal) literal.raw.length

end Reader

end GDScript
