import GDScript.Grammar.Language
import GDScript.Proofs.Between.Spaced
import GDScript.Proofs.Turn

/-!
# The blocks that rules find

A block is found in three ways only: behind a header, in a declaration or statement that has one, or as
the lines of a file. So a property that every block behind a header has is one of all blocks in what the
other rules find (`Rule.findsIn_body`): they put such blocks together, and most have none.
-/

namespace GDScript

open Grammar

/-! ### What is found in a text -/

namespace Grammar

variable {R : Type → Type} [RuleSet R] {α β σ : Type} {source : Text} {room : Nat}

/-- Every run from a cursor in the text that finishes finds a value with `P`. -/
def FindsIn (source : Text) (room : Nat) (g : Grammar R α) (P : α → Prop) : Prop :=
  ∀ c, c.IsIn source → Yields room g c fun v _ => P v

/-- What is given is found everywhere. -/
theorem findsIn_pure {v : α} {P : α → Prop} (h : P v) :
    FindsIn source room (Pure.pure v : Grammar R α) P :=
  fun _ _ => yields_pure h

/-- The second grammar starts in the text as well, wherever the first one has come to. -/
theorem FindsIn.bind {g : Grammar R α} {f : α → Grammar R β} {P : α → Prop} {Q : β → Prop}
    (h : FindsIn source room g P) (hf : ∀ v, P v → FindsIn source room (f v) Q) :
    FindsIn source room (g >>= f) Q :=
  fun c hc => ((h c hc).and (yields_reaches room g c)).bind fun v _ hv =>
    hf v hv.1 _ (hc.reaches hv.2)

/-- What the first grammar finds does not matter. -/
theorem FindsIn.after {g : Grammar R α} {f : α → Grammar R β} {Q : β → Prop}
    (hf : ∀ v, FindsIn source room (f v) Q) : FindsIn source room (g >>= f) Q :=
  FindsIn.bind (P := fun _ => True) (fun _ _ _ _ _ _ _ _ => trivial) fun v _ => hf v

/-- What all alternatives find, the choice finds. -/
theorem findsIn_choice {alternatives : List (Grammar R α)} {P : α → Prop}
    (h : ∀ g ∈ alternatives, FindsIn source room g P) :
    FindsIn source room (choice alternatives) P :=
  fun c hc => yields_choice fun g hg => h g hg c hc

/-- What each turn keeps, the loop keeps. -/
theorem FindsIn.iterate {turn : σ → Grammar R (Next σ)} {x : σ} {I : σ → Prop} (hx : I x)
    (h : ∀ y, I y → FindsIn source room (turn y) fun next => I next.state) :
    FindsIn source room (iterate turn x) I := by
  intro c hc
  -- that the cursor stays in the text is part of the invariant
  have hloop : Yields room (Grammar.iterate turn x) c fun y c' => I y ∧ c'.IsIn source := by
    refine Yields.iterate ⟨hx, hc⟩ fun y c' hy => ?_
    exact ((h y hy.1 c' hy.2).and (yields_reaches room _ c')).mono fun _ _ hnext =>
      ⟨hnext.1, hy.2.reaches hnext.2⟩
  exact hloop.mono fun _ _ hy => hy.1

end Grammar

/-! ### What is said of the rules -/

/-- The blocks that belong to what a rule finds have the property; the lines of a rule have their own. -/
def Rule.BodiesHave (P : Block → Prop) : {α : Type} → Rule α → α → Prop
  | _, .indentedBlock _, body | _, .elseBranch _, body => P body
  | _, .decl _, d | _, .functionDecl _, d | _, .classDecl _, d | _, .varDecl, d | _, .constDecl, d
  | _, .extendsDecl, d | _, .classNameDecl, d | _, .signalDecl, d | _, .enumDecl, d =>
    ∀ body ∈ d.bodies, P body
  | _, .stmt _, s | _, .ifStmt _, s | _, .whileStmt _, s | _, .forStmt _, s | _, .matchStmt _, s
  | _, .assignStmt, s | _, .returnStmt, s | _, .passStmt, s => ∀ body ∈ s.bodies, P body
  | _, .condition _, b | _, .elifBranch _, b | _, .matchCase _, b => P b.block
  | _, _, _ => True

/-- The blocks that belong to what the rules find in the text have the property. -/
def Rule.AllBodiesHave (source : Text) (room : Nat) (P : Block → Prop) : Prop :=
  ∀ {α : Type} (rule : Rule α), FindsIn source room (call rule) (rule.BodiesHave P)

section Rules

variable {source : Text} {room : Nat} {P : Block → Prop}

/-! ### Declarations -/

namespace Declaration

/-- A declaration without a block. -/
theorem findsIn_of_bodies_eq_nil {g : Grammar Rule Decl} (h : Finds room g fun d => d.bodies = []) :
    FindsIn source room g fun d => ∀ body ∈ d.bodies, P body := by
  refine fun c _ => (h c).mono fun d _ hd body hbody => ?_
  rw [hd] at hbody
  exact absurd hbody List.not_mem_nil

/-- Most declarations have no block. -/
theorem finds_varDecl_bodies : Finds room varDecl fun d => d.bodies = [] := by
  refine Finds.after fun _ => Finds.after fun _ => Finds.after fun _ => Finds.after fun _ => ?_
  exact Finds.after fun _ => Finds.after fun _ => Finds.after fun _ => finds_pure rfl

theorem finds_constDecl_bodies : Finds room constDecl fun d => d.bodies = [] := by
  refine Finds.after fun _ => Finds.after fun _ => Finds.after fun _ => Finds.after fun found => ?_
  obtain ⟨typing, value⟩ := found
  cases value with
  | none => exact finds_expected
  | some value => exact finds_pure rfl

theorem finds_extendsDecl_bodies : Finds room extendsDecl fun d => d.bodies = [] := by
  refine Finds.after fun _ => Finds.after fun _ => Finds.after fun found => ?_
  cases found with
  | none => exact Finds.after fun _ => finds_pure rfl
  | some literal => exact finds_pure rfl

theorem finds_classNameDecl_bodies : Finds room classNameDecl fun d => d.bodies = [] :=
  Finds.after fun _ => Finds.after fun _ => Finds.after fun _ => finds_pure rfl

theorem finds_signalDecl_bodies : Finds room signalDecl fun d => d.bodies = [] :=
  Finds.after fun _ => Finds.after fun _ => Finds.after fun _ => Finds.after fun _ =>
    finds_pure rfl

theorem finds_enumDecl_bodies : Finds room enumDecl fun d => d.bodies = [] :=
  Finds.after fun _ => Finds.after fun _ => Finds.after fun _ => Finds.after fun _ =>
    Finds.after fun _ => finds_pure rfl

variable (hrules : Rule.AllBodiesHave source room P)

include hrules

/-- A function has one block, behind its header. -/
theorem findsIn_functionDecl (indent : Nat) : FindsIn source room (functionDecl indent)
    fun d => ∀ body ∈ d.bodies, P body := by
  refine FindsIn.after fun _ => FindsIn.after fun _ => FindsIn.after fun _ => ?_
  refine FindsIn.after fun _ => FindsIn.after fun _ => FindsIn.after fun _ => ?_
  refine FindsIn.after fun _ => FindsIn.after fun _ => FindsIn.after fun _ => ?_
  refine FindsIn.after fun _ => (hrules (.indentedBlock indent)).bind fun body hbody => ?_
  exact findsIn_pure fun _ h => List.mem_singleton.mp h ▸ hbody

theorem findsIn_classDecl (indent : Nat) : FindsIn source room (classDecl indent)
    fun d => ∀ body ∈ d.bodies, P body := by
  refine FindsIn.after fun _ => FindsIn.after fun _ => FindsIn.after fun _ => ?_
  refine FindsIn.after fun _ => FindsIn.after fun _ => FindsIn.after fun _ => ?_
  refine (hrules (.indentedBlock indent)).bind fun body hbody => ?_
  exact findsIn_pure fun _ h => List.mem_singleton.mp h ▸ hbody

/-- A declaration has the blocks of the rule that has found it. -/
theorem findsIn_decl (indent : Nat) : FindsIn source room (decl indent)
    fun d => ∀ body ∈ d.bodies, P body := by
  refine findsIn_choice fun g hg => ?_
  simp only [List.mem_cons, List.not_mem_nil, or_false] at hg
  rcases hg with rfl | rfl | rfl | rfl | rfl | rfl | rfl | rfl <;>
    exact hrules _

end Declaration

/-! ### Statements -/

namespace Statement

/-- A statement without a block. -/
theorem findsIn_of_bodies_eq_nil {g : Grammar Rule Stmt} (h : Finds room g fun s => s.bodies = []) :
    FindsIn source room g fun s => ∀ body ∈ s.bodies, P body := by
  refine fun c _ => (h c).mono fun s _ hs body hbody => ?_
  rw [hs] at hbody
  exact absurd hbody List.not_mem_nil

theorem finds_assignStmt_bodies : Finds room assignStmt fun s => s.bodies = [] := by
  refine Finds.after fun _ => Finds.after fun _ => Finds.after fun found => ?_
  cases found with
  | none => exact finds_expected
  | some op => exact Finds.after fun _ => Finds.after fun _ => finds_pure rfl

theorem finds_returnStmt_bodies : Finds room returnStmt fun s => s.bodies = [] := by
  refine Finds.after fun _ => Finds.after fun _ => Finds.after fun ended => ?_
  split
  · exact finds_pure rfl
  · exact Finds.after fun _ => finds_pure rfl

theorem finds_passStmt_bodies : Finds room passStmt fun s => s.bodies = [] :=
  Finds.after fun _ => finds_pure rfl

variable (hrules : Rule.AllBodiesHave source room P)

include hrules

/-- A branch has one block, behind its header. -/
theorem findsIn_condition (indent : Nat) :
    FindsIn source room (condition indent) fun b => P b.block := by
  refine FindsIn.after fun _ => FindsIn.after fun _ => FindsIn.after fun _ => ?_
  refine FindsIn.after fun _ => (hrules (.indentedBlock indent)).bind fun body hbody => ?_
  exact findsIn_pure hbody

theorem findsIn_elifBranch (indent : Nat) : FindsIn source room (elifBranch indent) fun found =>
    ∀ b ∈ found, P b.block := by
  have hbranch : FindsIn source room (call (Rule.elifBranch indent))
      fun b => P b.block := hrules (.elifBranch indent)
  refine FindsIn.after fun word => ?_
  split
  · exact hbranch.bind fun b hb => findsIn_pure (by simpa using hb)
  · exact findsIn_pure (by simp)

theorem findsIn_elseBranch (indent : Nat) : FindsIn source room (elseBranch indent) fun found =>
    ∀ body ∈ found, P body := by
  have hbody : FindsIn source room (call (Rule.elseBranch indent)) P :=
    hrules (.elseBranch indent)
  refine FindsIn.after fun word => ?_
  split
  · exact hbody.bind fun body h => findsIn_pure (by simpa using h)
  · exact findsIn_pure (by simp)

/-- A choice has the blocks of its branches, and of the last one. -/
theorem findsIn_ifStmt (indent : Nat) : FindsIn source room (ifStmt indent)
    fun s => ∀ body ∈ s.bodies, P body := by
  refine FindsIn.after fun _ => (hrules (.condition indent)).bind fun branch hbranch => ?_
  refine FindsIn.bind (P := fun elifs => ∀ b ∈ elifs, P b.block)
    (FindsIn.iterate (by simp) fun found hfound => ?_) fun elifs helifs => ?_
  · refine (findsIn_elifBranch hrules indent).bind fun next hnext => ?_
    cases next with
    | none => exact findsIn_pure hfound
    | some b => exact findsIn_pure (List.forall_mem_cons.mpr ⟨hnext b rfl, hfound⟩)
  · refine (findsIn_elseBranch hrules indent).bind fun otherwise hotherwise => ?_
    refine findsIn_pure fun body hbody => ?_
    rw [Stmt.bodies, List.mem_cons, List.mem_append, List.mem_map, Option.mem_toList] at hbody
    -- the block belongs to the first branch, to a further one, or to the last one
    rcases hbody with rfl | ⟨b, hb, rfl⟩ | hbody
    · exact hbranch
    · exact helifs b (List.mem_reverse.mp hb)
    · exact hotherwise body hbody

/-- A match has the blocks of its cases. -/
theorem findsIn_matchStmt (indent : Nat) : FindsIn source room (matchStmt indent)
    fun s => ∀ body ∈ s.bodies, P body := by
  have hcase : ∀ width, FindsIn source room (call (Rule.matchCase width))
      fun b => P b.block := fun width => hrules (.matchCase width)
  refine FindsIn.after fun _ => FindsIn.after fun _ => FindsIn.after fun subject => ?_
  refine FindsIn.after fun _ => FindsIn.after fun _ => FindsIn.after fun width => ?_
  refine FindsIn.bind (P := fun cases => ∀ b ∈ cases, P b.block)
    (FindsIn.iterate (by simp) fun found hfound => FindsIn.after fun more => ?_)
    fun cases hcases => ?_
  · split
    · exact (hcase width).bind fun b hb => findsIn_pure (List.forall_mem_cons.mpr ⟨hb, hfound⟩)
    · exact findsIn_pure hfound
  · -- without any case, the match is complained about
    split
    · exact fun _ _ => yields_expected
    · refine findsIn_pure fun body hbody => ?_
      rw [Stmt.bodies, List.mem_map] at hbody
      obtain ⟨b, hb, rfl⟩ := hbody
      exact hcases b (List.mem_reverse.mp hb)

/-- A statement has the blocks of the rule that has found it. -/
theorem findsIn_stmt (indent : Nat) : FindsIn source room (stmt indent)
    fun s => ∀ body ∈ s.bodies, P body := by
  refine findsIn_choice fun g hg => ?_
  simp only [List.mem_cons, List.not_mem_nil, or_false] at hg
  rcases hg with rfl | rfl | rfl | rfl | rfl | rfl | rfl <;>
    exact hrules _

end Statement

/-! ### Every rule -/

/-- The bodies of rules put blocks together that the rules find which they call. -/
theorem Rule.findsIn_body (hrules : Rule.AllBodiesHave source room P)
    (hindented : ∀ header, FindsIn source room (Script.indentedBlock header) P) {α : Type}
    (rule : Rule α) : FindsIn source room rule.body (rule.BodiesHave P) := by
  -- the two loops differ in their word and in what they make of the branch
  have hloop : ∀ {word : Text} {f : Condition → Stmt} (indent : Nat),
      (∀ b, (f b).bodies = [b.block]) → FindsIn source room (do
        expectKeyword word
        let test ← call (Rule.condition indent)
        return f test) fun s => ∀ body ∈ s.bodies, P body := by
    intro word f indent hf
    refine FindsIn.after fun _ => (hrules (.condition indent)).bind fun test htest => ?_
    refine findsIn_pure fun body hbody => ?_
    rw [hf test, List.mem_singleton] at hbody
    rw [hbody]
    exact htest
  cases rule with
  | indentedBlock header => exact hindented header
  | decl indent => exact Declaration.findsIn_decl hrules indent
  | varDecl => exact Declaration.findsIn_of_bodies_eq_nil Declaration.finds_varDecl_bodies
  | constDecl => exact Declaration.findsIn_of_bodies_eq_nil Declaration.finds_constDecl_bodies
  | extendsDecl => exact Declaration.findsIn_of_bodies_eq_nil Declaration.finds_extendsDecl_bodies
  | classNameDecl =>
    exact Declaration.findsIn_of_bodies_eq_nil Declaration.finds_classNameDecl_bodies
  | signalDecl => exact Declaration.findsIn_of_bodies_eq_nil Declaration.finds_signalDecl_bodies
  | enumDecl => exact Declaration.findsIn_of_bodies_eq_nil Declaration.finds_enumDecl_bodies
  | functionDecl indent => exact Declaration.findsIn_functionDecl hrules indent
  | classDecl indent => exact Declaration.findsIn_classDecl hrules indent
  | stmt indent => exact Statement.findsIn_stmt hrules indent
  | ifStmt indent => exact Statement.findsIn_ifStmt hrules indent
  | elifBranch indent => exact FindsIn.after fun _ => hrules (.condition indent)
  | elseBranch indent =>
    exact FindsIn.after fun _ => FindsIn.after fun _ => FindsIn.after fun _ =>
      hrules (.indentedBlock indent)
  | whileStmt indent => exact hloop indent fun _ => rfl
  | forStmt indent => exact hloop indent fun _ => rfl
  | matchStmt indent => exact Statement.findsIn_matchStmt hrules indent
  | matchCase indent => exact hrules (.condition indent)
  | assignStmt => exact Statement.findsIn_of_bodies_eq_nil Statement.finds_assignStmt_bodies
  | returnStmt => exact Statement.findsIn_of_bodies_eq_nil Statement.finds_returnStmt_bodies
  | passStmt => exact Statement.findsIn_of_bodies_eq_nil Statement.finds_passStmt_bodies
  | condition indent => exact Statement.findsIn_condition hrules indent
  -- the other rules find no block
  | _ => exact fun _ _ _ _ _ _ _ _ => trivial

end Rules

end GDScript
