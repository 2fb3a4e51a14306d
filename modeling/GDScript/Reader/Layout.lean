import GDScript.Reader.Word
import GDScript.Text.Trim

/-!
# Gaps, lines and indentation

Inside a line a gap is spaces and tabs; inside brackets it may also hold line breaks and comments.
The indentation of a line is the number of spaces it starts with, and tabs never count. A line is
empty when nothing, or only a comment, follows its spaces and tabs.
-/

namespace GDScript

namespace Text

/-- The number of spaces and tabs at the start of a text. -/
def gapLength (t : Text) : Nat := (t.takeWhile CodeUnit.isSpace).length

/-- The number of units of white space, line breaks and comments at the start of a text. -/
def layoutLength : (inComment : Bool) → Text → Nat
  | _, [] => 0
  | inComment, u :: rest =>
    if u.isLineEnd then layoutLength false rest + 1
    else if inComment then layoutLength true rest + 1
    else if u.isSpace then layoutLength false rest + 1
    else if u == CodeUnit.hash then layoutLength true rest + 1
    else 0

/-- The number of spaces at the start of a text. -/
def indentation (t : Text) : Nat := (t.takeWhile (· == CodeUnit.space)).length

/-- The text starts with a line end, or is empty. -/
def atLineEnd (t : Text) : Bool := t.head?.all CodeUnit.isLineEnd

/-- The length of the line break at the start of a text: a line feed, perhaps after a return. -/
def lineBreakLength : Text → Nat
  | [] => 0
  | u :: rest =>
    if u == CodeUnit.lineFeed then 1
    else if u == CodeUnit.carriageReturn && rest.head? == some CodeUnit.lineFeed then 2
    else 0

/-- The first line holds only spaces and tabs. -/
def isBlankLine (t : Text) : Bool := atLineEnd (t.dropWhile CodeUnit.isSpace)

/-- The first line holds only a comment. -/
def isCommentLine (t : Text) : Bool := (t.dropWhile CodeUnit.isSpace).head? == some CodeUnit.hash

/-- The first line holds no code. -/
def isEmptyLine (t : Text) : Bool := t.isBlankLine || t.isCommentLine

/-- The length of the first line with its line feed, one more at the end of the text. -/
def lineLength (t : Text) : Nat := (t.takeWhile (· != CodeUnit.lineFeed)).length + 1

/--
The number of units of the lines, from the start of a text on, of which `droppable` holds; it is
asked about the text from each line on. With `inside` the text starts within a line that is dropped.
-/
def droppedLength (droppable : Text → Bool) : (inside : Bool) → Text → Nat
  | _, [] => 0
  | inside, u :: rest =>
    if inside || droppable (u :: rest) then
      droppedLength droppable (u != CodeUnit.lineFeed) rest + 1
    else 0

/-- The number of units of the empty lines at the start of a text. -/
def emptyLinesLength (t : Text) : Nat := droppedLength isEmptyLine false t

/-- The number of units up to the next line that holds code: a line break and empty lines. -/
def codeDistance (t : Text) : Nat :=
  t.lineBreakLength + emptyLinesLength (t.drop t.lineBreakLength)

/-- The comment at the start of a text, with its `#`. -/
def comment? : Text → Option Text
  | [] => none
  | u :: rest =>
    if u == CodeUnit.hash then some (u :: rest.takeWhile (!CodeUnit.isLineEnd ·)) else none

end Text

namespace Reader

/-- Spaces and tabs. -/
def skipSpaces : Reader Unit := skip Text.gapLength

/-- White space, line breaks and comments. -/
def skipLayout : Reader Unit := skip (Text.layoutLength false)

/-- A comment; what follows its `#` is given without the blanks at its ends. -/
def comment : Reader (Option Text) := fun t =>
  match t.comment? with
  | some found => .took (some (Text.trim (found.drop 1))) found.length
  | none => .took none 0

/-- A line break. -/
def lineBreak : Reader Bool := fun t => .took (t.lineBreakLength != 0) t.lineBreakLength

/-- The rest of the line, with its line feed. -/
def skipLine : Reader Unit := skip Text.lineLength

/-- A line break, and then empty lines. -/
def skipEmptyLines : Reader Unit := skip Text.codeDistance

/-- Spaces, when there are exactly `width` of them. -/
def sameIndent (width : Nat) : Reader Bool := takeIf width (·.indentation == width)

/-- The number of spaces ahead, when there are more than `width`; nothing is taken. -/
def moreIndent (width : Nat) : Reader (Option Nat) :=
  look fun t => if width < t.indentation then some t.indentation else none

/-- The end of the line. -/
def atLineEnd : Reader Bool := look Text.atLineEnd

/-- The end of the text. -/
def atEnd : Reader Bool := look List.isEmpty

/--
A line break, empty lines and the indentation of the next line that holds code, when its width is
`width` and `accept` holds of what follows the indentation.
-/
def seekLine (width : Nat) (accept : Text → Bool) : Reader Bool := fun t =>
  let line : Text := t.drop t.codeDistance
  if line.indentation == width && accept (line.drop width) then .took true (t.codeDistance + width)
  else .took false 0

end Reader

/-- The advice for a line whose indentation goes on with a tab. -/
def Complaint.tabHint (next : Option CodeUnit) : Text :=
  if next == some CodeUnit.tab then "Hint: Tabs do not count as indentation" else []

/-- The line that starts `distance` units ahead is not indented as it should be. -/
def Complaint.indentation (relation : Text) (width : Nat) (line : Text) (distance : Nat) :
    Complaint :=
  let found := line.indentation
  { code := .indentationMismatch
    arguments := [("relation", .text relation), ("expected", .integer width),
      ("found", .integer found)]
    hint := Complaint.tabHint (line.drop found).head?
    distance := distance + found }

namespace Reader

/--
The indentation of the next line that holds code, which must be greater than that of the header;
nothing is taken.
-/
def bodyIndent (header : Nat) : Reader Nat := fun t =>
  let distance := t.emptyLinesLength
  let line : Text := t.drop distance
  if line.isEmpty then .fault ((Complaint.unexpected "indented block" none).shift distance)
  else if header < line.indentation then .took line.indentation 0
  else .fault (.indentation "greater than" header line distance)

end Reader

end GDScript
