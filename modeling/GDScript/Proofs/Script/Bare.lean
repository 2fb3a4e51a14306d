import GDScript.Tree.Script

/-!
# Trees without places

A script may be written in many ways, and the lines of its tree know where they were read. What the
ways have in common is the tree without these places: `Line.bare` puts the same span everywhere.
-/

namespace GDScript

/-- The span that stands for every place. -/
abbrev Span.nowhere : Span := ⟨.first, .first⟩

mutual

/-- The declaration without places. -/
def Decl.bare : Decl → Decl
  | .functionDecl head body => .functionDecl head (Line.bareAll body)
  | .classDecl name base body => .classDecl name base (Line.bareAll body)
  | .varDecl d => .varDecl d
  | .constDecl d => .constDecl d
  | .extendsDecl target => .extendsDecl target
  | .classNameDecl name => .classNameDecl name
  | .enumDecl name variants => .enumDecl name variants
  | .signalDecl name params => .signalDecl name params

/-- The statement without places. -/
def Stmt.bare : Stmt → Stmt
  | .ifStmt branch elifs none => .ifStmt branch.bare (Condition.bareAll elifs) none
  | .ifStmt branch elifs (some body) =>
    .ifStmt branch.bare (Condition.bareAll elifs) (some (Line.bareAll body))
  | .whileStmt test => .whileStmt test.bare
  | .forStmt test => .forStmt test.bare
  | .matchStmt subject cases => .matchStmt subject (Condition.bareAll cases)
  | .assignStmt target op value => .assignStmt target op value
  | .returnStmt value => .returnStmt value
  | .passStmt => .passStmt

/-- The branch without places. -/
def Condition.bare : Condition → Condition
  | .mk e body => .mk e (Line.bareAll body)

/-- The branches without places. -/
def Condition.bareAll : List Condition → List Condition
  | [] => []
  | c :: cs => c.bare :: Condition.bareAll cs

/-- The line without places. -/
def Line.bare : Line → Line
  | .decl d _ => .decl d.bare .nowhere
  | .stmt s _ => .stmt s.bare .nowhere
  | .expr e _ => .expr e .nowhere
  | .comment text _ => .comment text .nowhere

/-- The lines without places. -/
def Line.bareAll : List Line → List Line
  | [] => []
  | l :: ls => l.bare :: Line.bareAll ls

end

/-- The block without places. -/
def Block.bare (block : Block) : Block := block.map Line.bare

/-- The lines of a body lose their places as those of a block do. -/
theorem Line.bareAll_eq_bare (block : Block) : Line.bareAll block = block.bare := by
  induction block with
  | nil => rfl
  | cons l ls ih => rw [Line.bareAll, ih]; rfl

/-- The branches lose their places one by one. -/
theorem Condition.bareAll_eq_map (cs : List Condition) :
    Condition.bareAll cs = cs.map Condition.bare := by
  induction cs with
  | nil => rfl
  | cons c cs ih => rw [Condition.bareAll, ih]; rfl

/-! ### The parts of a tree -/

@[simp] theorem Block.bare_nil : Block.bare [] = [] := rfl

@[simp] theorem Block.bare_cons (l : Line) (ls : Block) :
    Block.bare (l :: ls) = l.bare :: Block.bare ls := rfl

/-- Blocks that are put together lose their places apart. -/
@[simp] theorem Block.bare_append (ls more : Block) :
    Block.bare (ls ++ more) = Block.bare ls ++ Block.bare more :=
  List.map_append

/-- It does not matter in which order the lines are gathered. -/
@[simp] theorem Block.bare_reverse (ls : Block) :
    Block.bare ls.reverse = (Block.bare ls).reverse :=
  List.map_reverse

/-- A branch keeps its test, and its body loses its places. -/
@[simp] theorem Condition.bare_mk (e : Expr) (body : Block) :
    Condition.bare (.mk e body) = .mk e body.bare := by
  rw [Condition.bare, Line.bareAll_eq_bare]

/-- A function keeps its head, and its body loses its places. -/
@[simp] theorem Decl.bare_functionDecl (head : FunctionHead) (body : Block) :
    Decl.bare (.functionDecl head body) = .functionDecl head body.bare := by
  rw [Decl.bare, Line.bareAll_eq_bare]

/-- So does the body of a class. -/
@[simp] theorem Decl.bare_classDecl (name : Text) (base : Option Text) (body : Block) :
    Decl.bare (.classDecl name base body) = .classDecl name base body.bare := by
  rw [Decl.bare, Line.bareAll_eq_bare]

/-- All branches of a choice lose their places, and the last one if there is one. -/
@[simp] theorem Stmt.bare_ifStmt (branch : Condition) (elifs : List Condition)
    (otherwise : Option Block) :
    Stmt.bare (.ifStmt branch elifs otherwise)
      = .ifStmt branch.bare (elifs.map Condition.bare) (otherwise.map Block.bare) := by
  -- the definition tells a statement with a last branch from one without
  cases otherwise with
  | none => rw [Stmt.bare, Condition.bareAll_eq_map]; rfl
  | some body => rw [Stmt.bare, Condition.bareAll_eq_map, Line.bareAll_eq_bare]; rfl

@[simp] theorem Stmt.bare_whileStmt (test : Condition) :
    Stmt.bare (.whileStmt test) = .whileStmt test.bare := rfl

@[simp] theorem Stmt.bare_forStmt (test : Condition) :
    Stmt.bare (.forStmt test) = .forStmt test.bare := rfl

/-- The cases of a match lose their places. -/
@[simp] theorem Stmt.bare_matchStmt (subject : Expr) (cases : List Condition) :
    Stmt.bare (.matchStmt subject cases) = .matchStmt subject (cases.map Condition.bare) := by
  rw [Stmt.bare, Condition.bareAll_eq_map]

/-- A line has a place of its own, besides those within its declaration. -/
@[simp] theorem Line.bare_decl (d : Decl) (span : Span) :
    Line.bare (.decl d span) = .decl d.bare .nowhere := rfl

@[simp] theorem Line.bare_stmt (s : Stmt) (span : Span) :
    Line.bare (.stmt s span) = .stmt s.bare .nowhere := rfl

@[simp] theorem Line.bare_expr (e : Expr) (span : Span) :
    Line.bare (.expr e span) = .expr e .nowhere := rfl

@[simp] theorem Line.bare_comment (text : Text) (span : Span) :
    Line.bare (.comment text span) = .comment text .nowhere := rfl

end GDScript
