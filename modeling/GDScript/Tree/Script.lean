import GDScript.Location
import GDScript.Tree.Expr

/-!
# Scripts

A block is a list of lines. A line holds a declaration, a statement, an expression or a comment, and
knows the stretch of text that it was read from.
-/

namespace GDScript

/-- How the type of a variable or constant is given. -/
inductive Typing where
  /-- By a type name after `:`, or not at all. -/
  | declared (hint : Option Text)
  /-- By the value after `:=`. -/
  | inferred
deriving DecidableEq, Repr

namespace Typing

/-- The type is that of the value. -/
def isInferred : Typing → Bool
  | .declared _ => false
  | .inferred => true

/-- The type name. -/
def hint? : Typing → Option Text
  | .declared hint => hint
  | .inferred => none

end Typing

/-- The declaration of a variable. -/
structure VarDecl where
  modifier : Option VarModifier
  name : Text
  typing : Typing
  value : Option Expr
  /-- The function that sets the variable. -/
  setter : Option Text
  /-- The function that gets the variable. -/
  getter : Option Text
deriving Repr, BEq

/-- The declaration of a constant. -/
structure ConstDecl where
  name : Text
  typing : Typing
  value : Expr
deriving Repr, BEq

/-- What a script extends. -/
inductive ExtendsTarget where
  /-- A script, given by its path. -/
  | path (body : Text)
  /-- A class, given by its name. -/
  | name (name : Text)
deriving DecidableEq, Repr

/-- A name of an enumeration, perhaps with its value. -/
structure EnumVariant where
  name : Text
  value : Option Expr
deriving Repr, BEq

/-- A parameter of a function. -/
structure FunctionArg where
  name : Text
  typeHint : Option Text
  defaultValue : Option Expr
deriving Repr, BEq

/-- A function without its body. -/
structure FunctionHead where
  modifier : Option FunctionModifier
  name : Text
  arguments : List FunctionArg
  returnType : Option Text
deriving Repr, BEq

mutual

/-- A declaration. -/
inductive Decl where
  | varDecl (declaration : VarDecl)
  | constDecl (declaration : ConstDecl)
  | extendsDecl (target : ExtendsTarget)
  | classNameDecl (name : Text)
  | enumDecl (name : Option Text) (variants : List EnumVariant)
  | signalDecl (name : Text) (params : List Text)
  | functionDecl (head : FunctionHead) (body : List Line)
  | classDecl (name : Text) (base : Option Text) (body : List Line)

/-- A statement. -/
inductive Stmt where
  | ifStmt (branch : Condition) (elifBranches : List Condition) (elseBranch : Option (List Line))
  | whileStmt (condition : Condition)
  /-- The expression is that of the variable `in` the values. -/
  | forStmt (condition : Condition)
  | matchStmt (subject : Expr) (cases : List Condition)
  | assignStmt (target : Expr) (op : AssignOp) (value : Expr)
  | returnStmt (value : Option Expr)
  | passStmt

/-- An expression with the block that it governs. -/
inductive Condition where
  | mk (expr : Expr) (block : List Line)

/-- A line of a block. -/
inductive Line where
  | decl (declaration : Decl) (span : Span)
  | stmt (statement : Stmt) (span : Span)
  | expr (expression : Expr) (span : Span)
  /-- A comment on a line of its own, without its `#` and the blanks around it. -/
  | comment (text : Text) (span : Span)

end

/-- A block: the lines of one indentation. -/
abbrev Block := List Line

namespace Condition

/-- The expression. -/
def expr : Condition → Expr
  | .mk e _ => e

/-- The governed block. -/
def block : Condition → Block
  | .mk _ b => b

end Condition

namespace Line

/-- The stretch of text that the line was read from. -/
def span : Line → Span
  | .decl _ s | .stmt _ s | .expr _ s | .comment _ s => s

/-- The line is a comment. -/
def isComment : Line → Bool
  | .comment _ _ => true
  | _ => false

end Line

end GDScript
