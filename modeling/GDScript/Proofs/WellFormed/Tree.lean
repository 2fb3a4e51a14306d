import GDScript.Proofs.Expression.WellFormed
import GDScript.Proofs.Lexeme.Comment
import GDScript.Tree.Script

/-!
# Well-formed scripts

Which trees are declarations, statements and lines: every name and every type name is one, every
expression fits the place where it stands, lists that need an item have one, and comments are kept
on one line without blanks around them. A line that is well formed is so at every depth.
-/

namespace GDScript

variable {words : List Text}

/-- The name of a type, if it is given, is names with points between them. -/
def Typing.IsWellFormed (typing : Typing) : Prop :=
  ∀ hint ∈ typing.hint?, hint.IsChain CodeUnit.dot

/--
A variable has a name, and so have its accessors; its value is an expression that may stand alone.
-/
structure VarDecl.IsWellFormed (words : List Text) (d : VarDecl) : Prop where
  name : d.name.IsName
  typing : d.typing.IsWellFormed
  value : ∀ e ∈ d.value, e.Fits words .value
  setter : ∀ name ∈ d.setter, name.IsName
  getter : ∀ name ∈ d.getter, name.IsName
  /-- A type that is that of the value needs a value, and is not given beside it. -/
  inferred : d.typing.isInferred = true → d.typing.hint? = none ∧ d.value.isSome = true

/-- A constant has a name and a value. -/
structure ConstDecl.IsWellFormed (words : List Text) (d : ConstDecl) : Prop where
  name : d.name.IsName
  typing : d.typing.IsWellFormed
  value : d.value.Fits words .value
  inferred : d.typing.isInferred = true → d.typing.hint? = none

/-- A path may stand between quotes of one of the two kinds. -/
def ExtendsTarget.IsWellFormed : ExtendsTarget → Prop
  | .path body => ∃ quote : Quote, body.IsBody quote.unit
  | .name given => given.IsName

/-- A variant has a name, and its value is an expression that may stand alone. -/
structure EnumVariant.IsWellFormed (words : List Text) (v : EnumVariant) : Prop where
  name : v.name.IsName
  value : ∀ e ∈ v.value, e.Fits words .value

/-- A parameter has a name, and its default value is an expression that may stand alone. -/
structure FunctionArg.IsWellFormed (words : List Text) (a : FunctionArg) : Prop where
  name : a.name.IsName
  typeHint : ∀ hint ∈ a.typeHint, hint.IsChain CodeUnit.dot
  defaultValue : ∀ e ∈ a.defaultValue, e.Fits words .value

/-- A function has a name, well-formed parameters and, if it is given, the name of a type. -/
structure FunctionHead.IsWellFormed (words : List Text) (f : FunctionHead) : Prop where
  name : f.name.IsName
  arguments : ∀ a ∈ f.arguments, a.IsWellFormed words
  returnType : ∀ hint ∈ f.returnType, hint.IsChain CodeUnit.dot

mutual

/-- The parts of a declaration are well formed, and an enumeration has a variant. -/
inductive Decl.IsWellFormed (words : List Text) : Decl → Prop where
  | varDecl {d : VarDecl} (h : d.IsWellFormed words) : Decl.IsWellFormed words (.varDecl d)
  | constDecl {d : ConstDecl} (h : d.IsWellFormed words) : Decl.IsWellFormed words (.constDecl d)
  | extendsDecl {target : ExtendsTarget} (h : target.IsWellFormed) : Decl.IsWellFormed words (.extendsDecl target)
  | classNameDecl {name} (h : Text.IsName name) : Decl.IsWellFormed words (.classNameDecl name)
  | enumDecl {name : Option Text} {variants : List EnumVariant} (hname : ∀ n ∈ name, Text.IsName n) (hne : variants ≠ [])
      (h : ∀ v ∈ variants, v.IsWellFormed words) : Decl.IsWellFormed words (.enumDecl name variants)
  | signalDecl {name params} (hname : Text.IsName name) (h : ∀ p ∈ params, Text.IsName p) :
      Decl.IsWellFormed words (.signalDecl name params)
  | functionDecl {head : FunctionHead} {body} (hhead : head.IsWellFormed words)
      (hbody : ∀ l ∈ body, Line.IsWellFormed words l) :
      Decl.IsWellFormed words (.functionDecl head body)
  | classDecl {name base body} (hname : Text.IsName name)
      (hbase : ∀ b ∈ base, Text.IsChain CodeUnit.dot b)
      (hbody : ∀ l ∈ body, Line.IsWellFormed words l) : Decl.IsWellFormed words (.classDecl name base body)

/--
The parts of a statement are well formed, a match has a case, and what is assigned to is a target.
-/
inductive Stmt.IsWellFormed (words : List Text) : Stmt → Prop where
  | ifStmt {branch elifs otherwise} (hbranch : Condition.IsWellFormed words branch)
      (helifs : ∀ c ∈ elifs, Condition.IsWellFormed words c)
      (hotherwise : ∀ body ∈ otherwise, ∀ l ∈ body, Line.IsWellFormed words l) :
      Stmt.IsWellFormed words (.ifStmt branch elifs otherwise)
  | whileStmt {c} (h : Condition.IsWellFormed words c) : Stmt.IsWellFormed words (.whileStmt c)
  | forStmt {c} (h : Condition.IsWellFormed words c) : Stmt.IsWellFormed words (.forStmt c)
  | matchStmt {subject cases} (hsubject : subject.Fits words .value) (hne : cases ≠ [])
      (h : ∀ c ∈ cases, Condition.IsWellFormed words c) :
      Stmt.IsWellFormed words (.matchStmt subject cases)
  | assignStmt {target op value} (htarget : target.Fits words .target)
      (hvalue : value.Fits words .value) : Stmt.IsWellFormed words (.assignStmt target op value)
  | returnStmt {value} (h : ∀ e ∈ value, Expr.Fits words .value e) :
      Stmt.IsWellFormed words (.returnStmt value)
  | passStmt : Stmt.IsWellFormed words .passStmt

/-- The test of a branch is an expression, and the lines of its block are well formed. -/
inductive Condition.IsWellFormed (words : List Text) : Condition → Prop where
  | mk {e body} (he : e.Fits words .value) (hbody : ∀ l ∈ body, Line.IsWellFormed words l) :
      Condition.IsWellFormed words (.mk e body)

/-- What stands on a line is well formed. -/
inductive Line.IsWellFormed (words : List Text) : Line → Prop where
  | decl {d span} (h : Decl.IsWellFormed words d) : Line.IsWellFormed words (.decl d span)
  | stmt {s span} (h : Stmt.IsWellFormed words s) : Line.IsWellFormed words (.stmt s span)
  | expr {e span} (h : e.Fits words .value) : Line.IsWellFormed words (.expr e span)
  | comment {text span} (h : Text.IsCommentText text) : Line.IsWellFormed words (.comment text span)

end

/-- The lines of a block are well formed. -/
def Block.IsWellFormed (words : List Text) (block : Block) : Prop :=
  ∀ l ∈ block, Line.IsWellFormed words l

end GDScript
