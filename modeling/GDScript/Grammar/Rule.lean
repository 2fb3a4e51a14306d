import GDScript.Grammar.Basic
import GDScript.Tree.Script

/-!
# The rules of a script

`Rule α` lists the rules that read an `α`; `Rule.label` is the name under which a rule is reported
as active. A rule about lines takes the indentation of the block that it stands in.
-/

namespace GDScript

/-- The rules that read an `α`. -/
inductive Rule : Type → Type where
  /-- A whole script. -/
  | file : Rule Block
  /-- The lines of one indentation; when `required` holds there is a line of code among them. -/
  | block (level : Nat) (required : Bool) : Rule Block
  /-- The block that a header governs. -/
  | indentedBlock (header : Nat) : Rule Block
  /-- What stands on one line, without its indentation. -/
  | line (indent : Nat) : Rule (List Line)
  | decl (indent : Nat) : Rule Decl
  | varDecl : Rule Decl
  | constDecl : Rule Decl
  | extendsDecl : Rule Decl
  | classNameDecl : Rule Decl
  | signalDecl : Rule Decl
  | enumDecl : Rule Decl
  | enumVariant : Rule EnumVariant
  | functionDecl (indent : Nat) : Rule Decl
  | functionArg : Rule FunctionArg
  | classDecl (indent : Nat) : Rule Decl
  | stmt (indent : Nat) : Rule Stmt
  | ifStmt (indent : Nat) : Rule Stmt
  | elifBranch (indent : Nat) : Rule Condition
  | elseBranch (indent : Nat) : Rule Block
  | whileStmt (indent : Nat) : Rule Stmt
  | forStmt (indent : Nat) : Rule Stmt
  | matchStmt (indent : Nat) : Rule Stmt
  | matchCase (indent : Nat) : Rule Condition
  | assignStmt : Rule Stmt
  | returnStmt : Rule Stmt
  | passStmt : Rule Stmt
  | condition (indent : Nat) : Rule Condition
  | expr : Rule Expr
  /-- The operand of an operator that has been read. -/
  | unary (op : UnaryOp) : Rule Expr
  | parens : Rule Expr
  /-- A subscript. -/
  | index : Rule Expr
  /-- What follows a member that has been read. -/
  | member (name : Expr) : Rule Expr
  | value : Rule Expr
  | int : Rule (Option IntLiteral)
  | string : Rule Expr
  | nodePath : Rule Expr
  | array : Rule Expr
  | object : Rule Expr
  | pair : Rule (Expr × Expr)
  /-- The arguments of a function whose name has been read. -/
  | functionCall (name : Text) : Rule Expr

/-- The name under which a rule is reported. -/
def Rule.label {α : Type} : Rule α → Text
  | .file => "file"
  | .block _ _ => "block"
  | .indentedBlock _ => "indented_block"
  | .line _ => "line"
  | .decl _ => "decl"
  | .varDecl => "var_decl"
  | .constDecl => "const_decl"
  | .extendsDecl => "extends_decl"
  | .classNameDecl => "classname_decl"
  | .signalDecl => "signal_decl"
  | .enumDecl => "enum_decl"
  | .enumVariant => "enum_variant"
  | .functionDecl _ => "function_decl"
  | .functionArg => "function_arg"
  | .classDecl _ => "class_decl"
  | .stmt _ => "stmt"
  | .ifStmt _ => "if_stmt"
  | .elifBranch _ => "elif_stmt"
  | .elseBranch _ => "else_stmt"
  | .whileStmt _ => "while_stmt"
  | .forStmt _ => "for_stmt"
  | .matchStmt _ => "match_stmt"
  | .matchCase _ => "match_case_stmt"
  | .assignStmt => "assign_stmt"
  | .returnStmt => "return_stmt"
  | .passStmt => "pass"
  | .condition _ => "condition"
  | .expr => "expr"
  | .unary _ => "expr_un"
  | .parens => "expr_parens"
  | .index => "expr_index"
  | .member _ => "attr"
  | .value => "value"
  | .int => "int"
  | .string => "string"
  | .nodePath => "node_path"
  | .array => "array"
  | .object => "object"
  | .pair => "pair"
  | .functionCall _ => "function_call"

end GDScript
