import GDScript.Text.Numeral
import GDScript.Text.Surrogate

/-!
# JSON documents

`Json.write` lays a document out with one member or element on a line, two spaces further to the
right than what contains it; an array or object without any is written on one line. In a string the
quote, the backslash, control characters and unpaired surrogates are escaped.
-/

namespace GDScript

/-- A JSON document; a number is given by its spelling. -/
inductive Json where
  | null
  | boolean (value : Bool)
  | number (spelling : Text)
  | string (value : Text)
  | array (elements : List Json)
  | object (members : List (Text × Json))
deriving Repr, Inhabited

namespace Json

/-- A natural number. -/
def ofNat (n : Nat) : Json := .number (Text.ofNat n)

/-- The value, or `null`. -/
def ofOption {α : Type} (encode : α → Json) : Option α → Json
  | none => .null
  | some value => encode value

/-! ### Strings -/

/-- A digit of the hexadecimal numeral, in lower case. -/
def hexDigit (n : Nat) : CodeUnit := UInt16.ofNat (if n < 10 then 0x30 + n else 0x57 + n)

/-- The form `\uXXXX` of a unit. -/
def unicodeEscape (u : CodeUnit) : Text :=
  let n := u.toNat
  [0x5C, 0x75, hexDigit (n / 4096 % 16), hexDigit (n / 256 % 16), hexDigit (n / 16 % 16),
    hexDigit (n % 16)]

/-- A unit as it stands in a string, unless it is half of a surrogate pair. -/
def escapeUnit (u : CodeUnit) : Text :=
  if u == 0x22 then [0x5C, 0x22]
  else if u == 0x5C then [0x5C, 0x5C]
  else if u == 0x08 then [0x5C, 0x62]
  else if u == 0x09 then [0x5C, 0x74]
  else if u == 0x0A then [0x5C, 0x6E]
  else if u == 0x0C then [0x5C, 0x66]
  else if u == 0x0D then [0x5C, 0x72]
  else if u < 0x20 || u.isSurrogate then unicodeEscape u
  else [u]

/-- A text as it stands between the quotes of a string. -/
def escape : Text → Text
  | [] => []
  | [u] => escapeUnit u
  | u :: v :: rest =>
    if u.isHighSurrogate && v.isLowSurrogate then u :: v :: escape rest
    else escapeUnit u ++ escape (v :: rest)

/-- A string with its quotes. -/
def quote (t : Text) : Text := "\"" ++ escape t ++ "\""

/-! ### Layout -/

/-- A line break and so many levels of two spaces, before some text. -/
def newline (depth : Nat) (tail : Text) : Text :=
  CodeUnit.lineFeed :: (List.replicate (2 * depth) CodeUnit.space ++ tail)

mutual

/-- The document, followed by some text. -/
def writeBefore (depth : Nat) : Json → Text → Text
  | .null, tail => "null" ++ tail
  | .boolean true, tail => "true" ++ tail
  | .boolean false, tail => "false" ++ tail
  | .number spelling, tail => spelling ++ tail
  | .string value, tail => quote value ++ tail
  | .array [], tail => "[]" ++ tail
  | .array (first :: rest), tail =>
    0x5B :: newline (depth + 1) (writeBefore (depth + 1) first (elementsBefore (depth + 1) rest
      (newline depth (0x5D :: tail))))
  | .object [], tail => 0x7B :: 0x7D :: tail
  | .object ((name, first) :: rest), tail =>
    0x7B :: newline (depth + 1) (quote name ++ ": " ++ writeBefore (depth + 1) first
      (membersBefore (depth + 1) rest (newline depth (0x7D :: tail))))

/-- Further elements, each behind a comma on a line of its own, followed by some text. -/
def elementsBefore (depth : Nat) : List Json → Text → Text
  | [], tail => tail
  | first :: rest, tail =>
    0x2C :: newline depth (writeBefore depth first (elementsBefore depth rest tail))

/-- Further members, each behind a comma on a line of its own, followed by some text. -/
def membersBefore (depth : Nat) : List (Text × Json) → Text → Text
  | [], tail => tail
  | (name, first) :: rest, tail =>
    0x2C :: newline depth (quote name ++ ": "
      ++ writeBefore depth first (membersBefore depth rest tail))

end

/-- The document as text. -/
def write (document : Json) : Text := writeBefore 0 document []

end Json

end GDScript
