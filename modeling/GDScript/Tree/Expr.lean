import GDScript.Tree.Literal
import GDScript.Tree.Operator

/-!
# Expressions

The tree of an expression keeps the spelling of its literals, but neither parentheses nor blanks. What
follows a value is an operator like others: a subscript, or a member, which is a name or a call.
-/

namespace GDScript

/-- An expression. -/
inductive Expr where
  /-- `null`. -/
  | null
  /-- `true` or `false`. -/
  | boolean (value : Bool)
  | int (literal : IntLiteral)
  | float (literal : FloatLiteral)
  | string (literal : StringLiteral)
  /-- A node path, with its `$`. -/
  | nodePath (path : Text)
  | array (elements : List Expr)
  /-- Keys with their values. -/
  | object (pairs : List (Expr × Expr))
  | ident (name : Text)
  | call (name : Text) (arguments : List Expr)
  | binary (op : BinaryOp) (left right : Expr)
  | unary (op : UnaryOp) (operand : Expr)
deriving Repr, BEq

end GDScript
