import GDScript.Reader.Word
import GDScript.Tree.Literal

/-!
# Strings and node paths

A string ends at the first delimiter that no backslash stands before; a backslash may stand only
before the delimiter, a backslash and `n`. A node path is `$` with a string or with names and
slashes.
-/

namespace GDScript

/-- How the search for the end of a string goes out. -/
inductive BodyScan where
  /-- The body, up to the closing delimiter. -/
  | closed (body : Text)
  /-- The input ends first. -/
  | unterminated
  /-- After `distance` units a backslash stands before a unit that cannot be escaped. -/
  | badEscape (distance : Nat) (escaped : CodeUnit)
deriving DecidableEq, Repr

namespace BodyScan

/-- The outcome when some units of the body stand before the text that was searched. -/
def after (read : Text) : BodyScan → BodyScan
  | .closed body => .closed (read ++ body)
  | .unterminated => .unterminated
  | .badEscape distance escaped => .badEscape (read.length + distance) escaped

end BodyScan

namespace Text

/-- A backslash may stand before this unit in a string with the given delimiter. -/
def escapable (quote u : CodeUnit) : Bool := u == quote || u == CodeUnit.backslash || u == 0x6E

/-- Searches the end of a string whose delimiter is `quote`, from behind the opening one. -/
def scanBody (quote : CodeUnit) : Text → BodyScan
  | [] => .unterminated
  | [u] => if u == quote then .closed [] else .unterminated
  | u :: v :: rest =>
    if u == quote then .closed []
    else if u == CodeUnit.backslash then
      if escapable quote v then (scanBody quote rest).after [u, v] else .badEscape 0 v
    else (scanBody quote (v :: rest)).after [u]

end Text

namespace Reader

/-- The string at the start of a text is never closed. -/
def unterminatedString : Complaint := ⟨.unterminatedString, [], [], 0⟩

/-- A unit, `distance` units ahead, cannot be escaped. -/
def invalidEscape (distance : Nat) (escaped : CodeUnit) : Complaint :=
  let shown := if escaped.isLineEnd then Text.describe (some escaped) else [escaped]
  ⟨.invalidEscape, [("char", .text shown)], [], distance⟩

/-- A string. -/
def string : Reader (Option StringLiteral)
  | [] => .took none 0
  | u :: rest =>
    match Quote.ofUnit? u with
    | none => .took none 0
    | some quote =>
      match Text.scanBody u rest with
      | .closed body => .took (some ⟨body, quote⟩) (body.length + 2)
      | .unterminated => .fault unterminatedString
      | .badEscape distance escaped => .fault (invalidEscape (distance + 1) escaped)

/-- A node path, with its `$`. -/
def nodePath : Reader (Option Text)
  | [] => .took none 0
  | u :: rest =>
    if u == CodeUnit.dollar then
      match string rest with
      | .fault complaint => .fault (complaint.shift 1)
      | .took (some literal) length => .took (some (u :: literal.write)) (length + 1)
      | .took none _ =>
        match Text.chain? CodeUnit.slash rest with
        | some names => .took (some (u :: names)) (names.length + 1)
        | none => .took none 0
    else .took none 0

end Reader

end GDScript
