import GDScript.Grammar.Script

/-!
# The language

`Rule.body` gives every rule what it reads, and `Script.parse` reads a whole script.
-/

namespace GDScript

open Grammar

/-- What a rule reads. -/
def Rule.body : {α : Type} → Rule α → Grammar Rule α
  | _, .file => Script.file
  | _, .block level required => Script.block level required
  | _, .indentedBlock header => Script.indentedBlock header
  | _, .line indent => Script.line indent
  | _, .decl indent => Declaration.decl indent
  | _, .varDecl => Declaration.varDecl
  | _, .constDecl => Declaration.constDecl
  | _, .extendsDecl => Declaration.extendsDecl
  | _, .classNameDecl => Declaration.classNameDecl
  | _, .signalDecl => Declaration.signalDecl
  | _, .enumDecl => Declaration.enumDecl
  | _, .enumVariant => Declaration.enumVariant
  | _, .functionDecl indent => Declaration.functionDecl indent
  | _, .functionArg => Declaration.functionArg
  | _, .classDecl indent => Declaration.classDecl indent
  | _, .stmt indent => Statement.stmt indent
  | _, .ifStmt indent => Statement.ifStmt indent
  | _, .elifBranch indent => Statement.elifBody indent
  | _, .elseBranch indent => Statement.elseBody indent
  | _, .whileStmt indent => Statement.whileStmt indent
  | _, .forStmt indent => Statement.forStmt indent
  | _, .matchStmt indent => Statement.matchStmt indent
  | _, .matchCase indent => call (.condition indent)
  | _, .assignStmt => Statement.assignStmt
  | _, .returnStmt => Statement.returnStmt
  | _, .passStmt => Statement.passStmt
  | _, .condition indent => Statement.condition indent
  | _, .expr => Expression.logic
  | _, .unary op => do
    let operand ← Expression.unary
    return .unary op operand
  | _, .parens => Expression.enclosed "(" ")"
  | _, .index => Expression.enclosed "[" "]"
  | _, .member name => Expression.chain name
  | _, .value => Expression.value
  | _, .int => read Reader.int
  | _, .string => Expression.string
  | _, .nodePath => Expression.nodePath
  | _, .array => Expression.array
  | _, .object => Expression.object
  | _, .pair => Expression.pair
  | _, .functionCall name => do
    let args ← Expression.callArguments
    return .call name args

instance : RuleSet Rule := ⟨Rule.label, Rule.body⟩

namespace Script

/-- Runs a grammar of the language at the start of a text. -/
def run {α : Type} (source : Text) (depth : Option Int) (g : Grammar Rule α) : Outcome α :=
  Grammar.start (depthLimit depth) 0 (Cursor.ofText source) g

/-- Reads a script, with at most so many rules active at a time. -/
def parse (source : Text) (depth : Option Int) : Except Failure Block :=
  match run source depth (call .file) with
  | .finished block _ _ => .ok block
  | .failed failure _ => .error failure

end Script

end GDScript
