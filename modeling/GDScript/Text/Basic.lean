/-!
# Text as UTF-16 code units

A script is a sequence of 16-bit code units, so a character outside the basic plane counts as two:
offsets and columns are counts of units, and a diagnostic may quote one half of such a character.
`Text.ofString` writes the units of a string. The remaining definitions are the classes of units
that the lexical rules ask for; every one of them holds of ASCII units only.
-/

namespace GDScript

/-- A UTF-16 code unit. -/
abbrev CodeUnit := UInt16

/-- A sequence of code units. -/
abbrev Text := List CodeUnit

namespace CodeUnit

/-- Line feed, the only unit that starts a new line. -/
abbrev lineFeed : CodeUnit := 0x0A

/-- Carriage return. -/
abbrev carriageReturn : CodeUnit := 0x0D

/-- Horizontal tab. -/
abbrev tab : CodeUnit := 0x09

/-- The space character. -/
abbrev space : CodeUnit := 0x20

/-- The double quote `"`. -/
abbrev doubleQuote : CodeUnit := 0x22

/-- The number sign `#`, which opens a comment. -/
abbrev hash : CodeUnit := 0x23

/-- The dollar sign `$`, which opens a node path. -/
abbrev dollar : CodeUnit := 0x24

/-- The single quote `'`. -/
abbrev singleQuote : CodeUnit := 0x27

/-- The full stop `.`. -/
abbrev dot : CodeUnit := 0x2E

/-- The slash `/`. -/
abbrev slash : CodeUnit := 0x2F

/-- The backslash, which opens an escape. -/
abbrev backslash : CodeUnit := 0x5C

/-- A decimal digit. -/
def isDigit (u : CodeUnit) : Bool := 0x30 ≤ u && u ≤ 0x39

/-- A hexadecimal digit, in either case. -/
def isHexDigit (u : CodeUnit) : Bool :=
  u.isDigit || (0x61 ≤ u && u ≤ 0x66) || (0x41 ≤ u && u ≤ 0x46)

/-- A Latin letter, in either case. -/
def isLetter (u : CodeUnit) : Bool := (0x61 ≤ u && u ≤ 0x7A) || (0x41 ≤ u && u ≤ 0x5A)

/-- A unit that may open an identifier: a letter or the underscore. -/
def isIdentifierStart (u : CodeUnit) : Bool := u.isLetter || u == 0x5F

/-- A unit that may continue an identifier. -/
def isIdentifierChar (u : CodeUnit) : Bool := u.isIdentifierStart || u.isDigit

/-- A unit of a gap inside a line: a space or a tab. -/
def isSpace (u : CodeUnit) : Bool := u == space || u == tab

/-- A unit that ends a line. -/
def isLineEnd (u : CodeUnit) : Bool := u == lineFeed || u == carriageReturn

/-- A quote that delimits strings. -/
def isQuote (u : CodeUnit) : Bool := u == doubleQuote || u == singleQuote

theorem isIdentifierChar_of_isIdentifierStart {u : CodeUnit} (h : u.isIdentifierStart) :
    u.isIdentifierChar := by
  simp [isIdentifierChar, h]

theorem isHexDigit_of_isDigit {u : CodeUnit} (h : u.isDigit) : u.isHexDigit := by
  simp [isHexDigit, h]

end CodeUnit

namespace Text

/-- The units of one character: the character itself, or a surrogate pair. -/
def ofChar (c : Char) : Text :=
  let n := c.toNat
  if n < 0x10000 then [UInt16.ofNat n]
  else
    [UInt16.ofNat (0xD800 + (n - 0x10000) / 0x400), UInt16.ofNat (0xDC00 + (n - 0x10000) % 0x400)]

/-- The units of a string, character by character. -/
def ofString (s : String) : Text := s.toList.flatMap ofChar

instance : Coe String Text := ⟨ofString⟩

/-- What a diagnostic calls the unit at the cursor, `none` standing for the end of the input. -/
def describe : Option CodeUnit → Text
  | none => "end of input"
  | some u =>
    if u.isLineEnd then "newline"
    else if u == CodeUnit.tab then "tab"
    else [CodeUnit.singleQuote, u, CodeUnit.singleQuote]

/-- The lines of a text: what stands between line feeds. -/
def lines : Text → List Text
  | [] => [[]]
  | u :: rest =>
    if u == CodeUnit.lineFeed then [] :: lines rest
    else match lines rest with
      | [] => [[u]]
      | line :: more => (u :: line) :: more

/-- The texts joined with a separator between neighbours. -/
def join (separator : Text) (parts : List Text) : Text := separator.intercalate parts

/-- The lines joined with line feeds. -/
def unlines (parts : List Text) : Text := join [CodeUnit.lineFeed] parts

/-- Order by code units, the first difference deciding and a beginning coming first. -/
def lessEq : Text → Text → Bool
  | [], _ => true
  | _ :: _, [] => false
  | u :: s, v :: t => if u == v then lessEq s t else u < v

end Text

end GDScript
