import GDScript.Json
import GDScript.Tree.Script
import GDScript.Binary64.Shortest

/-!
# The JSON rendering

Every node of the tree becomes an object that starts with the type of the node; what is missing is
`null`. Integers are strings, since they may exceed what a double holds exactly. How a float is
given is left to the caller; in the rendering of a script it is a number, or `null` when it is
infinite.
-/

namespace GDScript

namespace Location

/-- A location as an object. -/
def toJson (l : Location) : Json :=
  .object [("line", .ofNat l.line), ("column", .ofNat l.column), ("offset", .ofNat l.offset)]

end Location

namespace Span

/-- A stretch of text as an object. -/
def toJson (s : Span) : Json := .object [("start", s.start.toJson), ("end", s.stop.toJson)]

end Span

namespace Binary64

/-- A number, or `null` when it is not finite. -/
def toJson (x : Binary64) : Json := if x.magnitude?.isNone then .null else .number x.toText

end Binary64

namespace Json

/-- A node of the tree. -/
def node (type : Text) (members : List (Text × Json)) : Json :=
  .object (("type", .string type) :: members)

/-! ### Expressions -/

mutual

/-- An expression; `float` tells how the value of a float is given. -/
def ofExpr (float : Binary64 → Json) : Expr → Json
  | .null => node "Null" []
  | .boolean value => node "Boolean" [("value", .boolean value)]
  | .int literal =>
    node "Int" [("value", .string (Text.ofNat literal.value)), ("raw", .string literal.raw)]
  | .float literal => node "Float" [("value", float literal.value), ("raw", .string literal.raw)]
  | .string literal =>
    node "String" [("value", .string literal.body), ("quote", .string [literal.quote.unit])]
  | .nodePath path => node "NodePath" [("path", .string path)]
  | .array elements => node "Array" [("elements", .array (ofExprs float elements))]
  | .object pairs => node "Object" [("pairs", .array (ofPairs float pairs))]
  | .ident name => node "Ident" [("name", .string name)]
  | .call name arguments =>
    node "FunctionCall" [("name", .string name), ("args", .array (ofExprs float arguments))]
  | .binary op left right =>
    node "BinaryExpr"
      [("op", .string op.name), ("left", ofExpr float left), ("right", ofExpr float right)]
  | .unary op operand =>
    node "UnaryExpr" [("op", .string op.name), ("operand", ofExpr float operand)]

/-- Some expressions. -/
def ofExprs (float : Binary64 → Json) : List Expr → List Json
  | [] => []
  | e :: rest => ofExpr float e :: ofExprs float rest

/-- Some keys with their values. -/
def ofPairs (float : Binary64 → Json) : List (Expr × Expr) → List Json
  | [] => []
  | (key, value) :: rest =>
    .object [("key", ofExpr float key), ("value", ofExpr float value)] :: ofPairs float rest

end

/-! ### Declarations -/

/-- A text that may be missing. -/
def ofText? (t : Option Text) : Json := ofOption .string t

/-- A name of an enumeration. -/
def ofEnumVariant (float : Binary64 → Json) (v : EnumVariant) : Json :=
  .object [("name", .string v.name), ("value", ofOption (ofExpr float) v.value)]

/-- A parameter of a function. -/
def ofFunctionArg (float : Binary64 → Json) (a : FunctionArg) : Json :=
  .object [("name", .string a.name), ("typeHint", ofText? a.typeHint),
    ("defaultValue", ofOption (ofExpr float) a.defaultValue)]

/-- A variable. -/
def ofVarDecl (float : Binary64 → Json) (d : VarDecl) : Json :=
  node "VarDecl"
    [("modifier", ofText? (d.modifier.map VarModifier.word)), ("name", .string d.name),
      ("infer", .boolean d.typing.isInferred), ("typeHint", ofText? d.typing.hint?),
      ("value", ofOption (ofExpr float) d.value), ("setter", ofText? d.setter),
      ("getter", ofText? d.getter)]

/-- A constant. -/
def ofConstDecl (float : Binary64 → Json) (d : ConstDecl) : Json :=
  node "ConstDecl"
    [("name", .string d.name), ("infer", .boolean d.typing.isInferred),
      ("typeHint", ofText? d.typing.hint?), ("value", ofExpr float d.value)]

/-- What a script extends. -/
def ofExtendsTarget : ExtendsTarget → Json
  | .path body => node "ExtendsDecl" [("target", .string body), ("quoted", .boolean true)]
  | .name name => node "ExtendsDecl" [("target", .string name), ("quoted", .boolean false)]

/-! ### Lines -/

mutual

/-- A declaration. -/
def ofDecl (float : Binary64 → Json) : Decl → Json
  | .varDecl d => ofVarDecl float d
  | .constDecl d => ofConstDecl float d
  | .extendsDecl target => ofExtendsTarget target
  | .classNameDecl name => node "ClassNameDecl" [("name", .string name)]
  | .enumDecl name variants =>
    node "EnumDecl"
      [("name", ofText? name), ("variants", .array (variants.map (ofEnumVariant float)))]
  | .signalDecl name params =>
    node "SignalDecl" [("name", .string name), ("params", .array (params.map .string))]
  | .functionDecl head body =>
    node "FunctionDecl"
      [("modifier", ofText? (head.modifier.map FunctionModifier.word)), ("name", .string head.name),
        ("args", .array (head.arguments.map (ofFunctionArg float))),
        ("returnType", ofText? head.returnType), ("body", ofBlock float body)]
  | .classDecl name base body =>
    node "ClassDecl"
      [("name", .string name), ("extendsTarget", ofText? base), ("body", ofBlock float body)]

/-- A statement. -/
def ofStmt (float : Binary64 → Json) : Stmt → Json
  | .ifStmt branch elifs otherwise =>
    node "IfStmt"
      [("ifBranch", ofCondition float branch), ("elifBranches", .array (ofConditions float elifs)),
        ("elseBranch", ofBlock? float otherwise)]
  | .whileStmt c => node "WhileStmt" [("condition", ofCondition float c)]
  | .forStmt c => node "ForStmt" [("condition", ofCondition float c)]
  | .matchStmt subject cases =>
    node "MatchStmt"
      [("expr", ofExpr float subject), ("cases", .array (ofConditions float cases))]
  | .assignStmt target op value =>
    node "AssignStmt"
      [("target", ofExpr float target), ("op", .string op.sign), ("value", ofExpr float value)]
  | .returnStmt value => node "ReturnStmt" [("value", ofOption (ofExpr float) value)]
  | .passStmt => node "PassStmt" []

/-- An expression with its block. -/
def ofCondition (float : Binary64 → Json) : Condition → Json
  | .mk e body => node "Condition" [("expr", ofExpr float e), ("block", ofBlock float body)]

/-- Some expressions with their blocks. -/
def ofConditions (float : Binary64 → Json) : List Condition → List Json
  | [] => []
  | c :: rest => ofCondition float c :: ofConditions float rest

/-- A line. -/
def ofLine (float : Binary64 → Json) : Line → Json
  | .decl d s => node "DeclLine" [("decl", ofDecl float d), ("span", s.toJson)]
  | .stmt t s => node "StmtLine" [("stmt", ofStmt float t), ("span", s.toJson)]
  | .expr e s => node "ExprLine" [("expr", ofExpr float e), ("span", s.toJson)]
  | .comment t s => node "CommentLine" [("text", .string t), ("span", s.toJson)]

/-- Some lines. -/
def ofLines (float : Binary64 → Json) : List Line → List Json
  | [] => []
  | l :: rest => ofLine float l :: ofLines float rest

/-- A block. -/
def ofBlock (float : Binary64 → Json) : List Line → Json
  | lines => node "Block" [("lines", .array (ofLines float lines))]

/-- A block that may be missing. -/
def ofBlock? (float : Binary64 → Json) : Option (List Line) → Json
  | none => .null
  | some lines => ofBlock float lines

end

/-- The JSON rendering of a script. -/
def render (script : Block) : Text := (ofBlock Binary64.toJson script).write

end Json

end GDScript
