import GDScript.Diagnostic.Template

/-!
# Diagnostic codes

Every condition that is reported has a code. A code's definition gives its identifier, its category,
the template of its message and, where there is one, the documentation of its cause and its cure.
-/

namespace GDScript

/-- What a diagnostic is about. -/
inductive Category where
  | lexer
  | parse
  | file
  | internal
deriving DecidableEq, Repr

/-- The name of a category. -/
def Category.name : Category → Text
  | .lexer => "lexer"
  | .parse => "parse"
  | .file => "file"
  | .internal => "internal"

/-- A condition that is reported. -/
inductive Code where
  | unterminatedString
  | invalidEscape
  | integerOutOfRange
  | unexpectedInput
  | indentationMismatch
  | trailingContent
  | nestingTooDeep
  | missingPath
  | fileParse
  | internalError
deriving DecidableEq, Repr

/-- A script that shows a condition. -/
structure Example where
  /-- What goes wrong in it. -/
  description : Text
  /-- The script. -/
  code : Text

/-- All that is documented about a code. -/
structure Definition where
  /-- The identifier under which the code is reported. -/
  id : Text
  /-- What the code is about. -/
  category : Category
  /-- A short name of the condition. -/
  description : Text
  /-- The message. -/
  template : Template
  /-- Why the condition arises. -/
  cause : Option Text
  /-- What to do about it. -/
  resolution : Option Text
  /-- Scripts that show it. -/
  examples : List Example

namespace Code

/-- All codes, in the order of the documentation. -/
def all : List Code :=
  [.unterminatedString, .invalidEscape, .integerOutOfRange, .unexpectedInput, .indentationMismatch,
    .trailingContent, .nestingTooDeep, .missingPath, .fileParse, .internalError]

/-- The definition of a code. -/
def definition : Code → Definition
  | .unterminatedString => {
      id := "GDS-L001"
      category := .lexer
      description := "Unterminated string literal"
      template := [.literal "Unterminated string literal"]
      cause := some "A string was opened with a quote that is never closed."
      resolution := some "Add the matching closing quote."
      examples := [⟨"Missing closing quote", "var s = \"hello"⟩] }
  | .invalidEscape => {
      id := "GDS-L002"
      category := .lexer
      description := "Invalid escape sequence"
      template := [.literal "Invalid escape sequence \\", .argument "char", .literal " in string"]
      cause := some "Only the delimiting quote, a backslash and n may follow a backslash."
      resolution := some "Remove the backslash or escape it as \\\\."
      examples := [⟨"Tab escape", "var s = \"a\\tb\""⟩] }
  | .integerOutOfRange => {
      id := "GDS-L003"
      category := .lexer
      description := "Integer literal out of range"
      template := [.literal "Integer literal ", .argument "value", .literal " is out of range"]
      cause := some "The literal does not fit in a signed 64-bit integer."
      resolution := some "Use a smaller value or a float literal."
      examples := [] }
  | .unexpectedInput => {
      id := "GDS-P001"
      category := .parse
      description := "Unexpected input"
      template :=
        [.literal "Expected ", .argument "expected", .literal ", found ", .argument "found"]
      cause := some "The input does not match any grammar rule at this position."
      resolution := some "Check the syntax around the reported location."
      examples := [⟨"Missing colon after condition", "if a\n    pass"⟩] }
  | .indentationMismatch => {
      id := "GDS-P002"
      category := .parse
      description := "Indentation mismatch"
      template := [.literal "Expected indentation ", .argument "relation", .literal " ",
        .argument "expected", .literal ", found ", .argument "found"]
      cause := some (
        "A line is indented differently from the block it belongs to, or a block body " ++
        "is not indented deeper than its header.")
      resolution := some ("Indent every line of a block with the same number of spaces. " ++
        "Tabs do not count as indentation.")
      examples := [⟨"Body at header level", "if a:\npass"⟩,
        ⟨"Unexpected indent", "var a = 1\n    var b = 2"⟩] }
  | .trailingContent => {
      id := "GDS-P003"
      category := .parse
      description := "Trailing content"
      template := [.literal "Unexpected content after end of script: ", .argument "found"]
      cause := none
      resolution := none
      examples := [] }
  | .nestingTooDeep => {
      id := "GDS-P004"
      category := .parse
      description := "Nesting too deep"
      template := [.literal "Nesting exceeds the maximum depth of ", .argument "maxDepth"]
      cause := some "Expressions or blocks are nested deeper than the parser allows."
      resolution := some "Split the expression or raise maxDepth in .gdparse.yaml."
      examples := [] }
  | .missingPath => {
      id := "GDS-F001"
      category := .file
      description := "Missing path"
      template := [.literal "Path does not exist: ", .argument "path"]
      cause := none
      resolution := none
      examples := [] }
  | .fileParse => {
      id := "GDS-F002"
      category := .file
      description := "File parse error"
      template :=
        [.literal "Parse error on file ", .argument "path", .literal ": ", .argument "detail"]
      cause := none
      resolution := none
      examples := [] }
  | .internalError => {
      id := "GDS-I001"
      category := .internal
      description := "Internal error"
      template := [.literal "Error: ", .argument "message"]
      cause := none
      resolution := none
      examples := [] }

/-- The identifier of a code. -/
def id (code : Code) : Text := code.definition.id

/-- The category of a code. -/
def category (code : Code) : Category := code.definition.category

/-- The message of a code with its arguments in place. -/
def message (code : Code) (arguments : Arguments) : Text := code.definition.template.fill arguments

/-- The code with the given identifier. -/
def ofId? (id : Text) : Option Code := all.find? (·.id == id)

theorem mem_all (code : Code) : code ∈ all := by
  cases code <;> decide

theorem ofId?_id (code : Code) : ofId? code.id = some code := by
  cases code <;> rfl

end Code

end GDScript
