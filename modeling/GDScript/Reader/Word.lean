import GDScript.Cursor

/-!
# Names and words

An identifier is a letter or an underscore followed by letters, digits and underscores. A chain is a
sequence of identifiers with a separator between neighbours; a separator that no identifier follows
does not belong to it. A word is read only where no longer identifier starts.
-/

namespace GDScript

namespace Text

/-- The text starts with an identifier. -/
def startsName (t : Text) : Bool := t.head?.any CodeUnit.isIdentifierStart

/-- The identifier at the start of a text. -/
def identifier? (t : Text) : Option Text :=
  if t.startsName then some (t.takeWhile CodeUnit.isIdentifierChar) else none

/-- What remains of a chain of identifiers, from a place inside one of them. -/
def chainRest (separator : CodeUnit) : Text → Text
  | [] => []
  | u :: rest =>
    if u.isIdentifierChar || (u == separator && startsName rest) then u :: chainRest separator rest
    else []

/-- The chain of identifiers at the start of a text. -/
def chain? (separator : CodeUnit) (t : Text) : Option Text :=
  if t.startsName then some (t.chainRest separator) else none

/-- The text starts with the word, and no identifier goes on there. -/
def startsWord (word t : Text) : Bool :=
  word.isPrefixOf t && !(t.drop word.length).head?.any CodeUnit.isIdentifierChar

end Text

namespace Reader

/-- An identifier. -/
def identifier : Reader (Option Text) := lexeme Text.identifier?

/-- Identifiers with dots between them, the name of a type. -/
def dottedIdentifier : Reader (Option Text) := lexeme (Text.chain? CodeUnit.dot)

/-- The given word. -/
def keyword (word : Text) : Reader Bool := takeIf word.length (Text.startsWord word)

/-- The given word, and a complaint when it is not ahead. -/
def expectKeyword (word : Text) : Reader Unit := fun t =>
  if Text.startsWord word t then .took () word.length
  else .fault (.unexpected (quoted word) t.head?)

/-- The first of the choices whose word is ahead. -/
def oneOf {α : Type} (word : α → Text) (choices : List α) : Reader (Option α) := fun t =>
  match choices.find? fun choice => Text.startsWord (word choice) t with
  | some found => .took (some found) (word found).length
  | none => .took none 0

end Reader

end GDScript
