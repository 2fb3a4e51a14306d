import GDScript.Reader.Word
import GDScript.Tree.Operator

/-!
# Operator tables

A table lists the spellings of the operators of one level of the grammar. The first row that is
spelled at the cursor wins, so a longer spelling stands before those it starts with. A word is an
operator only as a whole word, and a sign only where no unit follows that would make it another
sign.
-/

namespace GDScript

/-- A spelling of an operator. -/
structure Spelling (Op : Type) where
  text : Text
  op : Op
  /-- The spelling is a word. -/
  isWord : Bool
  /-- Units that may not follow. -/
  notBefore : Text
deriving DecidableEq, Repr

namespace Spelling

variable {Op : Type}

/-- A sign. -/
def sign (text : Text) (op : Op) : Spelling Op := ⟨text, op, false, []⟩

/-- A sign that is another one before certain units. -/
def signUnless (text : Text) (op : Op) (notBefore : Text) : Spelling Op :=
  ⟨text, op, false, notBefore⟩

/-- A word. -/
def word (text : Text) (op : Op) : Spelling Op := ⟨text, op, true, []⟩

/-- The operator is spelled so at the start of a text. -/
def isAt (s : Spelling Op) (t : Text) : Bool :=
  let next := (t.drop s.text.length).head?
  s.text.isPrefixOf t && !(s.isWord && next.any CodeUnit.isIdentifierChar)
    && !next.any (s.notBefore.contains ·)

/-- The loosest level: logic, comparison, type tests. -/
def logic : List (Spelling BinaryOp) :=
  [sign "&&" .and, sign "||" .or, sign ">=" .gte, sign "<=" .lte, sign "==" .eq, sign "!=" .neq,
    sign ">" .gt, sign "<" .lt, word "and" .and, word "or" .or, word "is" .is, word "in" .in,
    word "as" .as]

/-- Sums. -/
def additive : List (Spelling BinaryOp) := [signUnless "+" .add "=", signUnless "-" .sub "=>"]

/-- Products and bit operations; `|` and `&` leave their doubled forms to the logic level. -/
def multiplicative : List (Spelling BinaryOp) :=
  [signUnless "*" .mul "=", signUnless "/" .div "=", signUnless "%" .mod "=",
    signUnless "|" .bitOr "|=", signUnless "&" .bitAnd "&=", signUnless "^" .bitXor "="]

/-- Operators before an operand. -/
def unary : List (Spelling UnaryOp) :=
  [sign "-" .minus, sign "+" .plus, signUnless "!" .not "=", word "not" .not]

/-- Assignments. -/
def assign : List (Spelling AssignOp) :=
  [sign "+=" .add, sign "-=" .sub, sign "*=" .mul, sign "/=" .div, sign "%=" .mod,
    signUnless "=" .set "="]

end Spelling

namespace Reader

variable {Op : Type}

/-- The row of the table that is spelled ahead; nothing is taken. -/
def matchOperator (table : List (Spelling Op)) : Reader (Option (Spelling Op)) :=
  look fun t => table.find? (·.isAt t)

/-- An operator of the table. -/
def operator (table : List (Spelling Op)) : Reader (Option Op) := fun t =>
  match table.find? (·.isAt t) with
  | some s => .took (some s.op) s.text.length
  | none => .took none 0

end Reader

end GDScript
