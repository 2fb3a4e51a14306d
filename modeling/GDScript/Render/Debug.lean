import GDScript.Tree.Script

/-!
# The debug rendering

An expression is written in prefix form: `Expr.format` puts the operator and the operands between
parentheses. A block becomes one line of text per line of the script, with further lines for
branches and cases; what a line governs is written below it, two spaces further to the right.
-/

namespace GDScript

/-! ### Expressions -/

mutual

/-- The prefix form of an expression. -/
def Expr.format : Expr → Text
  | .null => "null"
  | .boolean true => "true"
  | .boolean false => "false"
  | .int literal => literal.raw
  | .float literal => literal.raw
  | .string literal => literal.write
  | .nodePath path => path
  | .array elements => "[" ++ Text.join ", " (Expr.formatList elements) ++ "]"
  | .object pairs => "\x7b" ++ Text.join ", " (Expr.formatPairs pairs) ++ "\x7d"
  | .ident name => name
  | .call name arguments => "(Call " ++ Text.join " " (name :: Expr.formatList arguments) ++ ")"
  | .binary op left right => "(" ++ op.name ++ " " ++ left.format ++ " " ++ right.format ++ ")"
  | .unary op operand => "(" ++ op.name ++ " " ++ operand.format ++ ")"

/-- The prefix forms of some expressions. -/
def Expr.formatList : List Expr → List Text
  | [] => []
  | e :: rest => e.format :: Expr.formatList rest

/-- The forms `key: value` of some pairs. -/
def Expr.formatPairs : List (Expr × Expr) → List Text
  | [] => []
  | (key, value) :: rest => (key.format ++ ": " ++ value.format) :: Expr.formatPairs rest

end

namespace Debug

/-- What is written for a value if there is one, behind some text. -/
def optional {α : Type} (before : Text) (format : α → Text) : Option α → Text
  | none => []
  | some value => before ++ format value

/-- A text as it is. -/
def plain (t : Text) : Text := t

/-! ### Declarations -/

/-- A variable. -/
def varDecl (d : VarDecl) : Text :=
  let modifier := optional [] (fun m => VarModifier.word m ++ " ") d.modifier
  let accessors : Text :=
    if d.setter.isNone && d.getter.isNone then []
    else " setget " ++ d.setter.getD [] ++ optional ", " plain d.getter
  let value : Text :=
    match d.typing with
    | .inferred => " :=" ++ optional " " Expr.format d.value
    | .declared hint => optional ": " plain hint ++ optional " = " Expr.format d.value
  "Var " ++ modifier ++ d.name ++ value ++ accessors

/-- A constant. -/
def constDecl (d : ConstDecl) : Text :=
  let assign : Text := if d.typing.isInferred then " := " else " = "
  "Const " ++ d.name ++ optional ": " plain d.typing.hint? ++ assign ++ d.value.format

/-- What a script extends. -/
def extendsTarget : ExtendsTarget → Text
  | .path body => "\"" ++ body ++ "\""
  | .name name => name

/-- A name of an enumeration. -/
def enumVariant (v : EnumVariant) : Text := v.name ++ optional " = " Expr.format v.value

/-- A parameter of a function. -/
def functionArg (a : FunctionArg) : Text :=
  a.name ++ optional ": " plain a.typeHint ++ optional " = " Expr.format a.defaultValue

/-- A function without its body. -/
def functionHead (h : FunctionHead) : Text :=
  let modifier := optional [] (fun m => FunctionModifier.word m ++ " ") h.modifier
  "Func " ++ modifier ++ h.name ++ "(" ++ Text.join ", " (h.arguments.map functionArg) ++ ")"
    ++ optional " -> " plain h.returnType

/-- The parameters of a signal. -/
def signalParams (params : List Text) : Text :=
  if params.isEmpty then [] else "(" ++ Text.join ", " params ++ ")"

/-! ### Lines -/

/-- A line of text at so many levels of two spaces. -/
def indented (depth : Nat) (t : Text) : Text := List.replicate (2 * depth) CodeUnit.space ++ t

mutual

/-- The lines of text for a declaration. -/
def decl (depth : Nat) : Decl → List Text
  | .varDecl d => [indented depth (varDecl d)]
  | .constDecl d => [indented depth (constDecl d)]
  | .extendsDecl target => [indented depth ("Extends " ++ extendsTarget target)]
  | .classNameDecl name => [indented depth ("ClassName " ++ name)]
  | .enumDecl name variants =>
    [indented depth ("Enum" ++ optional " " plain name ++ " \x7b "
      ++ Text.join ", " (variants.map enumVariant) ++ " \x7d")]
  | .signalDecl name params => [indented depth ("Signal " ++ name ++ signalParams params)]
  | .functionDecl head body => indented depth (functionHead head) :: block (depth + 1) body
  | .classDecl name base body =>
    indented depth ("Class " ++ name ++ optional " extends " plain base) :: block (depth + 1) body

/-- The lines of text for a statement. -/
def stmt (depth : Nat) : Stmt → List Text
  | .ifStmt branch elifs otherwise =>
    condition "If" depth branch ++ conditions "Elif" depth elifs ++ elseBranch depth otherwise
  | .whileStmt c => condition "While" depth c
  | .forStmt c => condition "For" depth c
  | .matchStmt subject cases =>
    indented depth ("Match " ++ subject.format) :: conditions "Case" (depth + 1) cases
  | .assignStmt target op value =>
    [indented depth ("Assign " ++ target.format ++ " " ++ op.sign ++ " " ++ value.format)]
  | .returnStmt value => [indented depth ("Return" ++ optional " " Expr.format value)]
  | .passStmt => [indented depth "Pass"]

/-- The lines of text for a branch without a condition. -/
def elseBranch (depth : Nat) : Option (List Line) → List Text
  | none => []
  | some body => indented depth "Else" :: block (depth + 1) body

/-- The lines of text for an expression with its block, behind a keyword. -/
def condition (keyword : Text) (depth : Nat) : Condition → List Text
  | .mk e body => indented depth (keyword ++ " " ++ e.format) :: block (depth + 1) body

/-- The lines of text for some expressions with their blocks. -/
def conditions (keyword : Text) (depth : Nat) : List Condition → List Text
  | [] => []
  | c :: rest => condition keyword depth c ++ conditions keyword depth rest

/-- The lines of text for a line of a script. -/
def line (depth : Nat) : Line → List Text
  | .decl d _ => decl depth d
  | .stmt s _ => stmt depth s
  | .expr e _ => [indented depth ("Expr " ++ e.format)]
  | .comment t _ => [indented depth ("Comment " ++ t)]

/-- The lines of text for a block. -/
def block (depth : Nat) : List Line → List Text
  | [] => []
  | l :: rest => line depth l ++ block depth rest

end

/-- The debug rendering of a script. -/
def render (script : Block) : Text := Text.unlines (block 0 script)

end Debug

end GDScript
