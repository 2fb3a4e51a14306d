import GDScript.Proofs.Pairing.Tree
import GDScript.Proofs.Stretch.Block

/-!
# The outline of a script

`Block.outline` lists what a rendering of a block shows, from the top of the script to its bottom: a
heading for each line at any depth, and one for each branch that is not the first one of its line. A
heading says how deep it is, which keyword it has and what stands between quotes on it. The lines
whose headings these are start one behind the other (`Block.IsNested.rises`).
-/

namespace GDScript

/-- What is known of a line of a script, or of a branch in it, without the blocks below it. -/
structure Heading where
  level : Nat
  keyword : Text
  /-- What stands between quotes. -/
  quotes : List Text
  /-- Where the line starts; a branch has no stretch of its own. -/
  start? : Option Nat

/-! ### Lines without what is below them -/

/-- The keyword that a declaration is shown with. -/
def Decl.keyword : Decl → Text
  | .varDecl _ => "Var"
  | .constDecl _ => "Const"
  | .extendsDecl _ => "Extends"
  | .classNameDecl _ => "ClassName"
  | .enumDecl _ _ => "Enum"
  | .signalDecl _ _ => "Signal"
  | .functionDecl _ _ => "Func"
  | .classDecl _ _ _ => "Class"

/-- The keyword that a statement is shown with; its further branches have their own. -/
def Stmt.keyword : Stmt → Text
  | .ifStmt _ _ _ => "If"
  | .whileStmt _ => "While"
  | .forStmt _ => "For"
  | .matchStmt _ _ => "Match"
  | .assignStmt _ _ _ => "Assign"
  | .returnStmt _ => "Return"
  | .passStmt => "Pass"

/-- The keyword that a line is shown with. -/
def Line.keyword : Line → Text
  | .decl d _ => d.keyword
  | .stmt s _ => s.keyword
  | .expr _ _ => "Expr"
  | .comment _ _ => "Comment"

/-- What stands between quotes in the default values of the parameters. -/
def FunctionHead.quotes (head : FunctionHead) : List Text :=
  head.arguments.flatMap fun a => Expr.quotationsOption a.defaultValue

/-- What stands between quotes in a declaration, but not in its block. -/
def Decl.quotes : Decl → List Text
  | .varDecl d => Expr.quotationsOption d.value
  | .constDecl d => d.value.quotations
  | .extendsDecl target => target.quotations
  | .enumDecl _ variants => variants.flatMap fun v => Expr.quotationsOption v.value
  | .functionDecl head _ => head.quotes
  | .classNameDecl _ | .signalDecl _ _ | .classDecl _ _ _ => []

/-- What stands between quotes in the first branch of a statement, but not in its block. -/
def Stmt.quotes : Stmt → List Text
  | .ifStmt branch _ _ => branch.expr.quotations
  | .whileStmt test | .forStmt test => test.expr.quotations
  | .matchStmt subject _ => subject.quotations
  | .assignStmt target _ value => target.quotations ++ value.quotations
  | .returnStmt value => Expr.quotationsOption value
  | .passStmt => []

/-- What stands between quotes on a line, but not below it. -/
def Line.quotes : Line → List Text
  | .decl d _ => d.quotes
  | .stmt s _ => s.quotes
  | .expr e _ => e.quotations
  | .comment _ _ => []

/-- The heading of a line. -/
def Line.heading (level : Nat) (l : Line) : Heading :=
  ⟨level, l.keyword, l.quotes, some l.span.start.offset⟩

/-! ### Outlines -/

mutual

/-- The headings in the blocks of a declaration. -/
def Decl.outline (level : Nat) : Decl → List Heading
  | .functionDecl _ body | .classDecl _ _ body => Line.outlineAll (level + 1) body
  | .varDecl _ | .constDecl _ | .extendsDecl _ | .classNameDecl _ | .enumDecl _ _
  | .signalDecl _ _ => []

/-- The headings in the blocks of a statement, and of its branches behind the first one. -/
def Stmt.outline (level : Nat) : Stmt → List Heading
  | .ifStmt branch elifs none =>
    branch.outline level ++ Condition.outlineAll "Elif" level elifs
  | .ifStmt branch elifs (some body) =>
    branch.outline level ++ Condition.outlineAll "Elif" level elifs
      ++ ⟨level, "Else", [], none⟩ :: Line.outlineAll (level + 1) body
  | .whileStmt test | .forStmt test => test.outline level
  | .matchStmt _ cases => Condition.outlineAll "Case" (level + 1) cases
  | .assignStmt _ _ _ | .returnStmt _ | .passStmt => []

/-- The headings in the block of a branch. -/
def Condition.outline (level : Nat) : Condition → List Heading
  | .mk _ body => Line.outlineAll (level + 1) body

/-- The headings of some branches and in their blocks. -/
def Condition.outlineAll (keyword : Text) (level : Nat) : List Condition → List Heading
  | [] => []
  | c :: rest =>
    ⟨level, keyword, c.expr.quotations, none⟩
      :: (c.outline level ++ Condition.outlineAll keyword level rest)

/-- The headings below a line. -/
def Line.outline (level : Nat) : Line → List Heading
  | .decl d _ => d.outline level
  | .stmt s _ => s.outline level
  | .expr _ _ | .comment _ _ => []

/-- The headings of some lines and below them. -/
def Line.outlineAll (level : Nat) : List Line → List Heading
  | [] => []
  | l :: rest => l.heading level :: (l.outline level ++ Line.outlineAll level rest)

end

/-- The headings of a block whose lines are at the level. -/
abbrev Block.outline (level : Nat) (block : Block) : List Heading := Line.outlineAll level block

/-! ### Where the lines start -/

/-- The numbers rise, from the first one of the two on and up to below the other one. -/
structure RisesBetween (start stop : Nat) (ns : List Nat) : Prop where
  sorted : ns.Pairwise (· < ·)
  bounds : ∀ n ∈ ns, start ≤ n ∧ n < stop

section Rises

variable {start mid mid' stop : Nat} {ns ms : List Nat}

theorem risesBetween_nil (start stop : Nat) : RisesBetween start stop [] :=
  ⟨.nil, by simp⟩

/--
Two stretches of rising numbers, of which the second one starts where the first one has ended, or
later.
-/
theorem RisesBetween.append (h : RisesBetween start mid ns)
    (h' : RisesBetween mid' stop ms) (hstart : start ≤ mid') (hmid : mid ≤ mid')
    (hstop : mid ≤ stop) : RisesBetween start stop (ns ++ ms) := by
  refine ⟨List.pairwise_append.mpr ⟨h.sorted, h'.sorted, fun n hn m hm => ?_⟩, fun n hn => ?_⟩
  · have hn := (h.bounds n hn).2
    have hm := (h'.bounds m hm).1
    omega
  · -- a number of the first stretch is below the end of both
    rcases List.mem_append.mp hn with hn | hn
    · have hbounds := h.bounds n hn
      omega
    · have hbounds := h'.bounds n hn
      omega

end Rises

/-- Where the lines start whose headings these are. -/
def Heading.starts (headings : List Heading) : List Nat := headings.filterMap Heading.start?

theorem Heading.starts_append (headings more : List Heading) :
    starts (headings ++ more) = starts headings ++ starts more :=
  List.filterMap_append

/-- The level of the lines in the blocks of a line; in a `match` they are below their cases. -/
def Line.bodyLevel (level : Nat) : Line → Nat
  | .stmt (.matchStmt _ _) _ => level + 2
  | _ => level + 1

/-- Below a branch start the lines of its block. -/
theorem Condition.starts_outline (level : Nat) (c : Condition) :
    Heading.starts (c.outline level) = Heading.starts (c.block.outline (level + 1)) := by
  cases c
  rw [Condition.outline]
  rfl

/--
The headings of further branches have no place of their own, so only the lines in them start
somewhere.
-/
theorem Condition.starts_outlineAll (keyword : Text) (level : Nat) (cs : List Condition) :
    Heading.starts (Condition.outlineAll keyword level cs)
      = (cs.map Condition.block).flatMap fun body =>
        Heading.starts (body.outline (level + 1)) := by
  induction cs with
  | nil => rfl
  | cons c cs ih =>
    rw [Condition.outlineAll, Heading.starts, List.filterMap_cons_none rfl, ← Heading.starts,
      Heading.starts_append, Condition.starts_outline, ih, List.map_cons, List.flatMap_cons]

/-- Below a line start the lines of its blocks. -/
theorem Line.starts_outline (level : Nat) (l : Line) :
    Heading.starts (l.outline level)
      = l.bodies.flatMap fun body => Heading.starts (body.outline (l.bodyLevel level)) := by
  cases l with
  | decl d span =>
    cases d with
    | functionDecl | classDecl =>
      simp [Line.outline, Decl.outline, Line.bodies, Decl.bodies, Line.bodyLevel]
    | _ => simp [Line.outline, Decl.outline, Line.bodies, Decl.bodies, Heading.starts]
  | stmt st span =>
    -- of the statements, only a match puts its lines two levels down
    cases st with
    | ifStmt branch elifs otherwise =>
      cases otherwise with
      | none =>
        simp [Line.outline, Stmt.outline, Line.bodies, Stmt.bodies, Line.bodyLevel,
          Heading.starts_append, Condition.starts_outline, Condition.starts_outlineAll]
      | some body =>
        simp [Line.outline, Stmt.outline, Line.bodies, Stmt.bodies, Line.bodyLevel,
          Heading.starts_append, Condition.starts_outline, Condition.starts_outlineAll]
        rfl
    | whileStmt | forStmt =>
      simp [Line.outline, Stmt.outline, Line.bodies, Stmt.bodies, Line.bodyLevel,
        Condition.starts_outline]
    | matchStmt =>
      simp [Line.outline, Stmt.outline, Line.bodies, Stmt.bodies, Line.bodyLevel,
        Condition.starts_outlineAll]
    | _ => simp [Line.outline, Stmt.outline, Line.bodies, Stmt.bodies, Heading.starts]
  | _ => simp [Line.outline, Line.bodies, Heading.starts]

theorem Line.starts_outlineAll_cons (level : Nat) (l : Line) (rest : List Line) :
    Heading.starts (Line.outlineAll level (l :: rest))
      = [l.span.start.offset] ++ Heading.starts (l.outline level)
        ++ Heading.starts (Line.outlineAll level rest) := by
  have hstart : (l.heading level).start? = some l.span.start.offset := rfl
  rw [Line.outlineAll, Heading.starts, List.filterMap_cons_some hstart, ← Heading.starts,
    Heading.starts_append]
  rfl

namespace Block

variable {start stop : Nat} {bodies : List Block} {block : Block}

/-- The lines of blocks that are apart start one behind the other. -/
theorem AreApart.rises (h : AreApart start stop bodies) {f : Block → List Nat}
    (hf : ∀ body ∈ bodies, ∀ start stop, InOrder start stop body →
      RisesBetween start stop (f body)) :
    RisesBetween (start + 1) stop (bodies.flatMap f) := by
  induction bodies generalizing start with
  | nil => exact risesBetween_nil _ _
  | cons body bodies ih =>
    obtain ⟨hbody, hbodies⟩ := List.forall_mem_cons.mp hf
    -- the lines of the first block are in order up to `mid`, and the other blocks start behind it
    obtain ⟨mid, horder, hapart⟩ := h
    have hle := horder.le
    have hmid := hapart.le
    have hrises := (hbody _ _ horder).append (ih hapart hbodies) (by omega) (by omega) hmid
    rwa [List.flatMap_cons]

/-- The step from the blocks below to the lines of a block. -/
theorem InOrder.rises (horder : InOrder start stop block) (level : Nat)
    (h : ∀ l ∈ block, l.span.start.offset < l.span.stop.offset ∧
      AreApart l.span.start.offset l.span.stop.offset l.bodies)
    (hbodies : ∀ l ∈ block, ∀ body ∈ l.bodies, ∀ start stop level, InOrder start stop body →
      RisesBetween start stop (Heading.starts (body.outline level))) :
    RisesBetween start stop (Heading.starts (block.outline level)) := by
  induction block generalizing start with
  | nil => exact risesBetween_nil _ _
  | cons l rest ih =>
    obtain ⟨⟨hlt, hapart⟩, hlines⟩ := List.forall_mem_cons.mp h
    obtain ⟨hbelow, hmore⟩ := List.forall_mem_cons.mp hbodies
    obtain ⟨hstart, -, hrest⟩ := horder
    have hstop := hrest.le
    -- the line itself, what is below it, and the lines that follow
    have hfirst : RisesBetween start (l.span.start.offset + 1) [l.span.start.offset] :=
      ⟨List.pairwise_singleton _ _, by simpa using hstart⟩
    have hunder : RisesBetween (l.span.start.offset + 1) l.span.stop.offset
        (Heading.starts (l.outline level)) := by
      rw [Line.starts_outline]
      exact hapart.rises fun body hbody start stop => hbelow body hbody start stop _
    rw [Line.starts_outlineAll_cons]
    exact (hfirst.append hunder (by omega) (Nat.le_refl _) (by omega)).append (ih hrest hlines hmore)
      (by omega) (Nat.le_refl _) hstop

/-- The lines of a nested block and those below them start one behind the other. -/
theorem IsNested.rises (h : block.IsNested) (level : Nat) (horder : InOrder start stop block) :
    RisesBetween start stop (Heading.starts (block.outline level)) := by
  induction h generalizing level start stop with
  | mk h _ ih => exact horder.rises level h fun l hl body hbody _ _ => ih l hl body hbody

end Block

end GDScript
