import GDScript.Binary64.Shortest

/-!
# Documents

A document is what a settings file holds: nothing, a truth value, a number, a text, a sequence or a
mapping. `Document.display` is its text in a message. How a document is written is no matter of this
library: whoever runs it brings a `Document.Reader` along, which makes a document of a text, or tells
why it cannot, and may warn of something on the way.
-/

namespace GDScript

/-- What a settings file holds. -/
inductive Document where
  /-- Nothing. -/
  | null
  /-- A truth value. -/
  | boolean (value : Bool)
  /-- A number. -/
  | number (value : Binary64)
  /-- A text. -/
  | text (value : Text)
  /-- A sequence. -/
  | list (items : List Document)
  /-- Keys with their values; no key stands twice. -/
  | mapping (members : List (Text × Document))
deriving Repr, Inhabited

namespace Document

/-- The member that keeps a mapping from having a text, whatever it holds. -/
def textKey : Text := "toString"

mutual

/-- The text of a document, if it has one: the items of a sequence with commas between them. -/
def display : Document → Option Text
  | .null => some "null"
  | .boolean value => some (if value then "true" else "false")
  | .number x => some x.toText
  | .text t => some t
  | .list items => (displayItems items).map (Text.join ",")
  | .mapping members =>
    if members.any fun member => member.1 == textKey then none else some "[object Object]"

/-- The texts of the items of a sequence; nothing is written for a missing one. -/
def displayItems : List Document → Option (List Text)
  | [] => some []
  | .null :: rest => (displayItems rest).map ([] :: ·)
  | item :: rest => do
    let shown ← item.display
    let more ← displayItems rest
    return shown :: more

end

/-! ### Readers -/

/-- What becomes of a text that is read as a document. -/
structure Reading where
  /-- What the reader warns of, whether or not there is a document. -/
  warnings : List Text
  /-- The document, or why there is none. -/
  result : Except Text Document

/-- A reader of documents. -/
abbrev Reader := Text → Reading

end Document

end GDScript
