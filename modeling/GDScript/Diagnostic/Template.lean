import GDScript.Text.Numeral

/-!
# Message templates

A template is a sequence of literal texts and named arguments. `Template.fill` puts the arguments in
place. The text form, made by `Template.write`, doubles the braces of the literals and puts a name
between braces; `Template.render` fills a template given in that form. Values are inserted as they
are and never read again.
-/

namespace GDScript

/-- A value that a diagnostic reports. -/
inductive Argument where
  | text (value : Text)
  | integer (value : Int)
  | boolean (value : Bool)
  | null
deriving DecidableEq, Repr, Inhabited

/-- The text of a reported value. -/
def Argument.format : Argument → Text
  | .text t => t
  | .integer n => Text.ofInt n
  | .boolean true => "true"
  | .boolean false => "false"
  | .null => "null"

/-- The values that a diagnostic reports, by name. -/
abbrev Arguments := List (Text × Argument)

/-- The text of the named value, empty when there is none. -/
def Arguments.format (arguments : Arguments) (name : Text) : Text :=
  match arguments.lookup name with
  | some value => value.format
  | none => []

/-- A part of a template. -/
inductive Segment where
  | literal (text : Text)
  | argument (name : Text)
deriving DecidableEq, Repr

/-- A message with places for arguments. -/
abbrev Template := List Segment

namespace Template

/-- The opening brace. -/
abbrev openBrace : CodeUnit := 0x7B

/-- The closing brace. -/
abbrev closeBrace : CodeUnit := 0x7D

/-- The message with the arguments in place. -/
def fill (arguments : Arguments) : Template → Text
  | [] => []
  | .literal t :: rest => t ++ fill arguments rest
  | .argument name :: rest => arguments.format name ++ fill arguments rest

/-- A literal text with its braces doubled. -/
def doubled : Text → Text
  | [] => []
  | u :: rest =>
    if u == openBrace || u == closeBrace then u :: u :: doubled rest else u :: doubled rest

/-- The text form of a template. -/
def write : Template → Text
  | [] => []
  | .literal t :: rest => doubled t ++ write rest
  | .argument name :: rest => openBrace :: name ++ closeBrace :: write rest

/--
Fills a template in text form. `name` holds, in reverse, what has been read of a name whose brace is
still open. A doubled brace stands for one brace, a lone closing brace for itself; there is no
result when the text ends inside a name.
-/
def expand (arguments : Arguments) : Option Text → Text → Option Text
  | none, [] => some []
  | none, [u] => if u == openBrace then none else some [u]
  | none, u :: v :: rest =>
    if u == openBrace then
      if v == openBrace then (expand arguments none rest).map (openBrace :: ·)
      else expand arguments (some []) (v :: rest)
    else if u == closeBrace && v == closeBrace then
      (expand arguments none rest).map (closeBrace :: ·)
    else (expand arguments none (v :: rest)).map (u :: ·)
  | some _, [] => none
  | some name, u :: rest =>
    if u == closeBrace then
      (expand arguments none rest).map (arguments.format name.reverse ++ ·)
    else expand arguments (some (u :: name)) rest

/-- Fills a template in text form; a template with an unclosed brace is returned as it is. -/
def render (arguments : Arguments) (text : Text) : Text :=
  (expand arguments none text).getD text

end Template

end GDScript
