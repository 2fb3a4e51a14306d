import GDScript.Text.Basic

/-!
# Operators and modifiers

The words and signs of the language that the tree names by what they mean.
-/

namespace GDScript

/-- A binary operator; `attr` and `index` join a value with a member and with a subscript. -/
inductive BinaryOp where
  | add
  | sub
  | mul
  | div
  | mod
  | bitAnd
  | bitOr
  | bitXor
  | attr
  | index
  | and
  | or
  | eq
  | neq
  | lt
  | lte
  | gt
  | gte
  | is
  | in
  | as
deriving DecidableEq, Repr

/-- The name of a binary operator in a rendered tree. -/
def BinaryOp.name : BinaryOp → Text
  | .add => "Add"
  | .sub => "Sub"
  | .mul => "Mul"
  | .div => "Div"
  | .mod => "Mod"
  | .bitAnd => "BinAnd"
  | .bitOr => "BinOr"
  | .bitXor => "BinXor"
  | .attr => "Attr"
  | .index => "Index"
  | .and => "And"
  | .or => "Or"
  | .eq => "Eq"
  | .neq => "Neq"
  | .lt => "Lt"
  | .lte => "Lte"
  | .gt => "Gt"
  | .gte => "Gte"
  | .is => "Is"
  | .in => "In"
  | .as => "As"

/-- An operator before its operand. -/
inductive UnaryOp where
  | plus
  | minus
  | not
deriving DecidableEq, Repr

/-- The name of a unary operator in a rendered tree. -/
def UnaryOp.name : UnaryOp → Text
  | .plus => "Plus"
  | .minus => "Minus"
  | .not => "Not"

/-- The sign of an assignment. -/
inductive AssignOp where
  | set
  | add
  | sub
  | mul
  | div
  | mod
deriving DecidableEq, Repr

/-- How an assignment is signed, in a script as in a rendered tree. -/
def AssignOp.sign : AssignOp → Text
  | .set => "="
  | .add => "+="
  | .sub => "-="
  | .mul => "*="
  | .div => "/="
  | .mod => "%="

/-- A word before `var`. -/
inductive VarModifier where
  | onready
  | export
deriving DecidableEq, Repr

namespace VarModifier

/-- The word. -/
def word : VarModifier → Text
  | .onready => "onready"
  | .export => "export"

/-- All of them, in the order in which they are tried. -/
def all : List VarModifier := [.onready, .export]

end VarModifier

/-- A word before `func`. -/
inductive FunctionModifier where
  | static
  | remotesync
  | mastersync
  | puppetsync
  | remote
  | master
  | puppet
deriving DecidableEq, Repr

namespace FunctionModifier

/-- The word. -/
def word : FunctionModifier → Text
  | .static => "static"
  | .remotesync => "remotesync"
  | .mastersync => "mastersync"
  | .puppetsync => "puppetsync"
  | .remote => "remote"
  | .master => "master"
  | .puppet => "puppet"

/-- All of them, in the order in which they are tried. -/
def all : List FunctionModifier :=
  [.static, .remotesync, .mastersync, .puppetsync, .remote, .master, .puppet]

end FunctionModifier

end GDScript
