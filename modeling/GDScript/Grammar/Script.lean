import GDScript.Grammar.Declaration
import GDScript.Grammar.Statement

/-!
# The grammar of scripts

A block takes the lines of exactly one indentation. Blank lines are passed over, and so are comments
at other indentations. A block ends before the first line of code that has another indentation or
does not parse; then the cursor is left behind the last line that was taken.
-/

namespace GDScript

open Grammar

namespace Script

open Expression (expr)

/-! ### Lines -/

/-- A declaration, a statement or an expression, in this order. -/
def lineItem (indent : Nat) : Grammar Rule Line := do
  let start ← here
  choice
    [(do
        let found ← call (.decl indent)
        let stop ← here
        return .decl found ⟨start, stop⟩),
      (do
        let found ← call (.stmt indent)
        let stop ← here
        return .stmt found ⟨start, stop⟩),
      (do
        let found ← expr
        let stop ← here
        return .expr found ⟨start, stop⟩)]

/-- The items of one line, with semicolons between them; a comment may follow the last one. -/
def line (indent : Nat) : Grammar Rule (List Line) := do
  let first ← lineItem indent
  let items ← iterate (fun items => do
    skipSpaces
    let _ ← read Reader.comment
    if ← read Reader.atLineEnd then return .done items
    else if ← consume ";" then
      skipSpaces
      if ← look fun t => t.atLineEnd || List.isPrefixOf "#" t then return .again items
      else
        let item ← lineItem indent
        return .again (item :: items)
    else expected "end of line") [first]
  return items.reverse

/-- A comment on a line of its own. -/
def commentLine : Grammar Rule Line := do
  skipSpaces
  let start ← here
  let text ← read Reader.comment
  let stop ← here
  return .comment (text.getD []) ⟨start, stop⟩

/-! ### Blocks -/

/-- What a line is to a block. -/
inductive LineKind where
  /-- There is no line left. -/
  | ended
  /-- A comment at the indentation of the block. -/
  | comment
  /-- Code at the indentation of the block. -/
  | code
  /-- Code at another indentation. -/
  | misplaced
deriving DecidableEq, Repr

/-- A line that a block passes over: a blank one, or a comment at another indentation. -/
def isPassedOver (level : Nat) (t : Text) : Bool :=
  t.isBlankLine || (t.isCommentLine && t.indentation != level)

/-- What the line at the start of a text is to a block. -/
def lineKind (level : Nat) (t : Text) : LineKind :=
  if t.isEmpty then .ended
  else if t.isCommentLine then .comment
  else if t.indentation == level then .code
  else .misplaced

/-- The next line of a block, if there is one; when `required` holds a line of code has to parse. -/
def blockLine (level : Nat) (required : Bool) : Grammar Rule (Option (List Line)) :=
  optional do
    read (Reader.skip (Text.droppedLength (isPassedOver level) false))
    match ← look (lineKind level) with
    | .ended => return none
    | .comment =>
      let found ← commentLine
      return some [found]
    | .misplaced =>
      note fun t => .indentation "of" level t 0
      return none
    | .code =>
      read (Reader.skip fun _ => level)
      -- behind the first line of code a line that fails ends the block and raises nothing
      if required then
        let items ← call (.line level)
        return some items
      else attempt (call (.line level))

/-- The lines of one indentation; when `required` holds the first line of code has to parse. -/
def block (level : Nat) (required : Bool) : Grammar Rule Block := do
  let lines ← iterate (fun lines => do
    match ← blockLine level (required && lines.all Line.isComment) with
    | some found => return .again (found.reverse ++ lines)
    | none => return .done lines) []
  return lines.reverse

/-- The block that a header governs, from the colon of the header on. -/
def indentedBlock (header : Nat) : Grammar Rule Block := do
  let level ← Statement.blockOpening header
  call (.block level true)

/-! ### Files -/

/-- What remains of a line, as a diagnostic quotes it. -/
def excerpt (t : Text) : Text := (t.take 30).takeWhile (!CodeUnit.isLineEnd ·)

/-- Only empty lines are left, which are taken. -/
def finished : Grammar Rule Bool :=
  rewindIf (!·) do
    read Reader.skipEmptyLines
    read Reader.atEnd

/-- Complains about text that no rule has been blamed for. -/
def trailing : Reader Block := fun t =>
  .fault ⟨.trailingContent, [("found", .text (Reader.quoted (excerpt t)))], [], 0⟩

/-- A block without indentation, and nothing but empty lines after it. -/
def file : Grammar Rule Block := do
  let lines ← call (.block 0 false)
  if ← finished then return lines
  else
    blame do
      read Reader.skipEmptyLines
      read trailing

end Script

end GDScript
