import GDScript.Grammar.Rule
import GDScript.Reader.Numeral
import GDScript.Reader.Quoted

/-!
# The grammar of expressions

Three levels of binary operators, each of which folds to the left; then operators before an operand,
which may be repeated; then a value with subscripts and members. Subscripts fold to the left, while
a member takes the rest of the chain as its right side, so `a.b[1].c` is `a` with the member
`b[1].c`.
-/

namespace GDScript

open Grammar

namespace Expression

/-- A whole expression. -/
def expr : Grammar Rule Expr := call .expr

/-! ### Values -/

/-- An identifier. -/
def name : Grammar Rule Text := require "identifier" Reader.identifier

/-- The name of a type. -/
def typeHint : Grammar Rule Text := require "type name" Reader.dottedIdentifier

/-- The arguments of a call; no comma may follow the last one. -/
def callArguments : Grammar Rule (List Expr) := parenthesized expr

/-- An identifier, or a call when a parenthesis follows it directly. -/
def identOrCall : Grammar Rule Expr := do
  let found ← name
  if ← check "(" then call (.functionCall found) else return .ident found

/-- The constant that is spelled at the start of a text, with its spelling. -/
def constant? (t : Text) : Option (Text × Expr) :=
  let constants : List (Text × Expr) :=
    [("null", .null), ("true", .boolean true), ("True", .boolean true), ("false", .boolean false),
      ("False", .boolean false)]
  constants.find? fun (word, _) => Text.startsWord word t

/-- One of the constants, as a whole word. -/
def constant : Reader (Option Expr) := fun t =>
  match constant? t with
  | some (word, value) => .took (some value) word.length
  | none => .took none 0

/-- A float, or else an integer. -/
def number : Grammar Rule Expr := do
  match ← read Reader.float with
  | some literal => return .float literal
  | none =>
    match ← call .int with
    | some literal => return .int literal
    | none => expected "number"

/-- A value, told apart by the unit that it starts with. -/
def value : Grammar Rule Expr := do
  match ← look List.head? with
  | none => expected "expression"
  | some u =>
    if u == 0x5B then call .array
    else if u == 0x7B then call .object
    else if u == CodeUnit.dollar then call .nodePath
    else if u.isQuote then call .string
    else if u.isDigit then number
    else if u.isIdentifierStart then
      match ← read constant with
      | some found => return found
      | none => identOrCall
    else expected "expression"

/-- A string literal. -/
def string : Grammar Rule Expr := do
  let literal ← require "string" Reader.string
  return .string literal

/-- A node path. -/
def nodePath : Grammar Rule Expr := do
  let path ← require "node path" Reader.nodePath
  return .nodePath path

/-- The elements of an array. -/
def array : Grammar Rule Expr := do
  expect "["
  let elements ← itemsUntil "]" expr
  return .array elements

/-- The pairs of an object. -/
def object : Grammar Rule Expr := do
  expect "\x7b"
  let pairs ← itemsUntil "\x7d" (call .pair)
  return .object pairs

/-- A key and its value. -/
def pair : Grammar Rule (Expr × Expr) := do
  let key ← expr
  gap
  expect ":"
  gap
  let value ← expr
  return (key, value)

/-! ### Chains -/

/-- An expression inside the given brackets. -/
def enclosed (opener closer : Text) : Grammar Rule Expr := do
  expect opener
  bracketed do
    gap
    let inner ← expr
    gap
    expect closer
    return inner

/-- An expression in parentheses, or a value. -/
def primary : Grammar Rule Expr := do
  if ← check "(" then call .parens else call .value

/-- The base with the subscripts that follow it. -/
def subscripts (base : Expr) : Grammar Rule Expr :=
  iterate (fun subscripted => do
    if ← check "[" then
      let index ← call .index
      return .again (.binary .index subscripted index)
    else return .done subscripted) base

/-- A point and the start of a name are ahead. -/
def startsMember (t : Text) : Bool := t.head? == some CodeUnit.dot && Text.startsName (t.drop 1)

/-- The base with the subscripts and members that follow it. -/
def chain (base : Expr) : Grammar Rule Expr := do
  let subscripted ← subscripts base
  if ← read (Reader.takeIf 1 startsMember) then
    let found ← identOrCall
    let rest ← call (.member found)
    return .binary .attr subscripted rest
  else return subscripted

/-- A value or an expression in parentheses, with subscripts and members. -/
def postfixed : Grammar Rule Expr := do
  let base ← primary
  chain base

/-! ### Operators -/

/-- An operand, perhaps with operators before it. -/
def unary : Grammar Rule Expr := do
  match ← read (Reader.operator Spelling.unary) with
  | none => postfixed
  | some op =>
    gap
    call (.unary op)

/--
Operands with operators of the table between them, folded to the left. A gap that no operator
follows is left alone.
-/
def binary (table : List (Spelling BinaryOp)) (operand : Grammar Rule Expr) :
    Grammar Rule Expr := do
  let first ← operand
  iterate (fun left => do
    let found ← optional do
      gap
      read (Reader.operator table)
    match found with
    | none => return .done left
    | some op =>
      gap
      let right ← operand
      return .again (.binary op left right)) first

/-- Products. -/
def term : Grammar Rule Expr := binary Spelling.multiplicative unary

/-- Sums. -/
def sum : Grammar Rule Expr := binary Spelling.additive term

/-- Comparisons and their combinations. -/
def logic : Grammar Rule Expr := binary Spelling.logic sum

end Expression

end GDScript
