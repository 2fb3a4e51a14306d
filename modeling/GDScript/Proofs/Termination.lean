import GDScript.Proofs.Evaluation
import GDScript.Proofs.Stepping

/-!
# Every rule moves on, and every script is read to an end

A rule that has to find something moves the cursor on where it finishes (`Rule.yields_precedes`), and
a turn of a loop does where it asks for another one (`Script.IsTurn.turnsAdvance`). The rules hold no
loops with other turns (`Rule.loopsWith_body`). So each run is the one evaluation of its grammar, in
which loops have no bound of their own, and no loop takes more turns than the text has units, and one
(`Script.progresses_and_ends`).
-/

namespace GDScript

open Grammar

/-! ### Moving on -/

/-- The second cursor lies behind the first one, and not behind the end of the text. -/
def Cursor.Precedes (c c' : Cursor) : Prop := ∃ k, 0 < k ∧ k ≤ c.ahead.length ∧ c' = c.advanceBy k

/-- A cursor that reaches another one precedes it if that one has less ahead. -/
theorem Cursor.Reaches.precedes {c c' : Cursor} (h : c.Reaches c')
    (hlt : c'.ahead.length < c.ahead.length) : c.Precedes c' := by
  obtain ⟨k, hk, rfl⟩ := h
  -- a step of no unit would leave as much ahead
  refine ⟨k, Nat.pos_of_ne_zero ?_, hk, rfl⟩
  rintro rfl
  exact Nat.lt_irrefl _ hlt

namespace Grammar

variable {R : Type → Type} [RuleSet R] {α σ : Type} {room : Nat}

/-- Wherever a run finishes, it has moved the cursor on. -/
def MovesOn (room : Nat) (g : Grammar R α) : Prop := ∀ c, Yields room g c fun _ c' => c.Precedes c'

/-- Wherever a turn asks for another one, it has moved the cursor on. -/
def TurnMovesOn (room : Nat) (turn : σ → Grammar R (Next σ)) : Prop :=
  ∀ x c, Yields room (turn x) c fun next c' => ∀ y, next = .again y → c.Precedes c'

/-- To leave less ahead is to move on. -/
theorem Advances.movesOn {g : Grammar R α} (h : Advances room g) : MovesOn room g :=
  fun c => ((yields_reaches room g c).and (h c)).mono fun _ _ hv => hv.1.precedes hv.2

/-- A turn that leaves less ahead has moved on. -/
theorem TurnsAdvance.movesOn {turn : σ → Grammar R (Next σ)} (h : TurnsAdvance room turn) :
    TurnMovesOn room turn := by
  refine fun x c => ((yields_reaches room (turn x) c).and (h x c)).mono fun next c' hnext => ?_
  rintro y rfl
  exact hnext.1.precedes hnext.2

end Grammar

/-- A rule that finds something that says so has moved the cursor on. -/
theorem Rule.yields_precedes (room : Nat) {α : Type} (rule : Rule α) (c : Cursor) :
    Yields room (call rule) c fun v c' => rule.TakesUnit v → c.Precedes c' :=
  ((yields_reaches room (call rule) c).and (Rule.allAdvance room rule c)).mono
    fun _ _ hv htakes => hv.1.precedes (hv.2 htakes)

/-- What follows the subscripts of a chain is nothing, or moves the cursor on. -/
theorem Expression.yields_chainEnd_precedes (room : Nat) (subscripted : Expr) (c : Cursor) :
    Yields room (chainEnd subscripted) c fun v c' =>
      v = subscripted ∧ c' = c ∨ c.Precedes c' := by
  -- without a point nothing is taken, and behind one there has to be a name
  refine Yields.bind (P := fun dot c' => c.Reaches c' ∧ (dot = false → c' = c))
    (yields_read fun dot n hread => ⟨c.reaches_advanceBy n, ?_⟩) fun dot c₁ h₁ => ?_
  · rintro rfl
    rw [Reader.takeIf] at hread
    split at hread <;> cases hread
    rfl
  · split
    · refine ((yields_reaches room _ c₁).and (advances_identOrCall.bind _ c₁)).mono fun _ _ hv => ?_
      exact .inr ((h₁.1.trans hv.1).precedes (Nat.lt_of_lt_of_le hv.2 h₁.1.length_le))
    · next hdot => exact yields_pure (.inl ⟨rfl, h₁.2 (Bool.eq_false_iff.mpr hdot)⟩)

/-! ### The loops of the language -/

namespace Script

open Expression (expr name)

/-- The turns of the loops that read a script. -/
inductive IsTurn : {σ : Type} → (σ → Grammar Rule (Next σ)) → Prop where
  | block (level : Nat) (required : Bool) : IsTurn (blockTurn level required)
  /-- A block, line by line. -/
  | byLine (level : Nat) (required : Bool) : IsTurn (byLineTurn level required)
  /-- Lines that are dropped. -/
  | skip (droppable : Text → Bool) : IsTurn (skipTurn droppable)
  | line (indent : Nat) : IsTurn (lineTurn indent)
  /-- Operators of one level with their operands. -/
  | binary (level : Nat) : IsTurn (Expression.binaryTurn level)
  /-- Subscripts. -/
  | index : IsTurn Expression.indexTurn
  /-- The elements of an array. -/
  | elements : IsTurn (itemsTurn "]" expr)
  /-- The pairs of an object. -/
  | pairs : IsTurn (itemsTurn "\x7d" (call .pair))
  /-- The arguments of a call. -/
  | arguments : IsTurn (commaTurn expr)
  /-- The parameters of a function. -/
  | parameters : IsTurn (commaTurn (call .functionArg))
  /-- The parameters of a signal. -/
  | names : IsTurn (commaTurn name)
  | variants : IsTurn Declaration.variantTurn
  /-- The branches of an `if`. -/
  | elifs (indent : Nat) : IsTurn (Statement.elifTurn indent)
  /-- The cases of a `match`. -/
  | cases (width : Nat) : IsTurn (Statement.caseTurn width)

/-- Each of these turns takes a unit where it asks for another one. -/
theorem IsTurn.turnsAdvance {σ : Type} {turn : σ → Grammar Rule (Next σ)} (h : IsTurn turn)
    (room : Nat) : TurnsAdvance room turn := by
  have hexpr : Advances room expr := Rule.advances room .expr fun _ => trivial
  -- one lemma for each loop, and four of them are lists of items
  cases h with
  | block level required => exact turnsAdvance_blockTurn room level required
  | byLine level required => exact turnsAdvance_byLineTurn room level required
  | skip droppable => exact turnsAdvance_skipTurn Rule room droppable
  | line indent => exact turnsAdvance_lineTurn room indent
  | binary level => exact Expression.turnsAdvance_binaryTurn room level
  | index => exact Expression.turnsAdvance_indexTurn room
  | elements => exact turnsAdvance_itemsTurn hexpr _
  | pairs => exact turnsAdvance_itemsTurn (Rule.advances room .pair fun _ => trivial) _
  | arguments => exact turnsAdvance_commaTurn hexpr
  | parameters => exact turnsAdvance_commaTurn (Rule.advances room .functionArg fun _ => trivial)
  | names => exact turnsAdvance_commaTurn Expression.advances_name
  | variants => exact Declaration.turnsAdvance_variantTurn room
  | elifs indent => exact Statement.turnsAdvance_elifTurn room indent
  | cases width => exact Statement.turnsAdvance_caseTurn room width

end Script

open Script (IsTurn)

namespace Expression

@[simp] theorem loopsWith_expr : LoopsWith IsTurn expr := trivial

@[simp] theorem loopsWith_name : LoopsWith IsTurn name := by
  simp [name]

@[simp] theorem loopsWith_typeHint : LoopsWith IsTurn typeHint := by
  simp [typeHint]

@[simp] theorem loopsWith_identOrCall : LoopsWith IsTurn identOrCall := by
  simp [identOrCall]

@[simp] theorem loopsWith_subscripts (base : Expr) : LoopsWith IsTurn (subscripts base) := by
  show LoopsWith IsTurn (iterate indexTurn base)
  simp [IsTurn.index, indexTurn]

@[simp] theorem loopsWith_chain (base : Expr) : LoopsWith IsTurn (chain base) := by
  simp [chain]

@[simp] theorem loopsWith_primary : LoopsWith IsTurn primary := by
  simp [primary]

@[simp] theorem loopsWith_postfixed : LoopsWith IsTurn postfixed := by
  simp [postfixed]

@[simp] theorem loopsWith_unary : LoopsWith IsTurn unary := by
  simp [unary, Option.forall]

/-- A level only has the loops of the next one, and its own. -/
theorem loopsWith_atLevel_of_le {level : Nat} (hle : level ≤ 2)
    (h : LoopsWith IsTurn (atLevel (level + 1))) : LoopsWith IsTurn (atLevel level) := by
  rw [atLevel_eq hle]
  simp [h, IsTurn.binary, binaryTurn, Option.forall]

@[simp] theorem loopsWith_atLevel (level : Nat) : LoopsWith IsTurn (atLevel level) :=
  have hterm : LoopsWith IsTurn term := @loopsWith_atLevel_of_le 2 (by decide) loopsWith_unary
  have hsum : LoopsWith IsTurn sum := @loopsWith_atLevel_of_le 1 (by decide) hterm
  match level with
  | 0 => @loopsWith_atLevel_of_le 0 (by decide) hsum
  | 1 => hsum
  | 2 => hterm
  | 3 => loopsWith_unary
  | 4 => loopsWith_postfixed
  | _ + 5 => loopsWith_primary

end Expression

namespace Declaration

@[simp] theorem loopsWith_initializer : LoopsWith IsTurn initializer := by
  simp [initializer]

@[simp] theorem loopsWith_binding : LoopsWith IsTurn binding := by
  simp [binding, annotation]

@[simp] theorem loopsWith_typeAfter (reader : Reader Bool) :
    LoopsWith IsTurn (typeAfter reader) := by
  simp [typeAfter]

@[simp] theorem loopsWith_functionArgs : LoopsWith IsTurn functionArgs :=
  loopsWith_parenthesized .parameters (loopsWith_call _)

@[simp] theorem loopsWith_signalParams : LoopsWith IsTurn signalParams := by
  simp [signalParams, loopsWith_parenthesized IsTurn.names Expression.loopsWith_name]

@[simp] theorem loopsWith_variants : LoopsWith IsTurn variants := by
  simp [variants_eq, IsTurn.variants, variantTurn]

end Declaration

namespace Statement

@[simp] theorem loopsWith_blockOpening (header : Nat) :
    LoopsWith IsTurn (blockOpening header) := by
  simp [blockOpening]

@[simp] theorem loopsWith_elifBranch (indent : Nat) : LoopsWith IsTurn (elifBranch indent) := by
  simp [elifBranch]

@[simp] theorem loopsWith_elseBranch (indent : Nat) : LoopsWith IsTurn (elseBranch indent) := by
  simp [elseBranch]

end Statement

namespace Script

@[simp] theorem loopsWith_lineItem (indent : Nat) : LoopsWith IsTurn (lineItem indent) := by
  refine ⟨trivial, fun start => loopsWith_choice fun g hg => ?_⟩
  simp only [List.mem_cons, List.not_mem_nil, or_false] at hg
  rcases hg with rfl | rfl | rfl <;> simp

@[simp] theorem loopsWith_commentLine : LoopsWith IsTurn commentLine := by
  simp [commentLine]

@[simp] theorem loopsWith_blockLine (level : Nat) (required : Bool) :
    LoopsWith IsTurn (blockLine level required) := by
  refine ⟨trivial, fun _ => ⟨trivial, fun kind => ?_⟩⟩
  cases kind <;> simp

@[simp] theorem loopsWith_blockTurn (level : Nat) (required : Bool) (lines : Block) :
    LoopsWith IsTurn (blockTurn level required lines) := by
  simp [blockTurn, Option.forall]

@[simp] theorem loopsWith_takeLine (level : Nat) (required : Bool) (lines : Block) :
    LoopsWith IsTurn (takeLine level required lines) := by
  refine ⟨loopsWith_blockTurn level required lines, fun next => ?_⟩
  cases next <;> simp

end Script

/-- The rules of the language have no other loops. -/
theorem Rule.loopsWith_body {α : Type} (rule : Rule α) : LoopsWith IsTurn rule.body := by
  -- every loop of the grammar is one of the turns that `IsTurn` lists
  cases rule with
  | file => simp [body, Script.file, Script.finished]
  | block level required => simp [body, Script.block_eq, IsTurn.block]
  | indentedBlock header => simp [body, Script.indentedBlock]
  | line indent => simp [body, Script.line_eq, IsTurn.line, Script.lineTurn, Script.nextItem]
  | decl indent =>
    refine loopsWith_choice fun g hg => ?_
    simp only [List.mem_cons, List.not_mem_nil, or_false] at hg
    rcases hg with rfl | rfl | rfl | rfl | rfl | rfl | rfl | rfl <;> trivial
  | stmt indent =>
    refine loopsWith_choice fun g hg => ?_
    simp only [List.mem_cons, List.not_mem_nil, or_false] at hg
    rcases hg with rfl | rfl | rfl | rfl | rfl | rfl | rfl <;> trivial
  | varDecl => simp [body, Declaration.varDecl, Declaration.setget, Declaration.accessors]
  | constDecl => simp [body, Declaration.constDecl, Option.forall]
  | extendsDecl => simp [body, Declaration.extendsDecl, Option.forall]
  | classNameDecl => simp [body, Declaration.classNameDecl]
  | signalDecl => simp [body, Declaration.signalDecl]
  | enumDecl => simp [body, Declaration.enumDecl]
  | enumVariant => simp [body, Declaration.enumVariant]
  | functionDecl indent => simp [body, Declaration.functionDecl]
  | functionArg => simp [body, Declaration.functionArg, Declaration.argAnnotation]
  | classDecl indent => simp [body, Declaration.classDecl]
  | ifStmt indent =>
    simp [body, Statement.ifStmt_eq, IsTurn.elifs, Statement.elifTurn, Option.forall]
  | elifBranch indent => simp [body, Statement.elifBody]
  | elseBranch indent => simp [body, Statement.elseBody]
  | whileStmt indent => simp [body, Statement.whileStmt]
  | forStmt indent => simp [body, Statement.forStmt]
  | matchStmt indent => simp [body, Statement.matchStmt_eq, IsTurn.cases, Statement.caseTurn]
  | matchCase indent => simp [body]
  | assignStmt => simp [body, Statement.assignStmt, Option.forall]
  | returnStmt => simp [body, Statement.returnStmt]
  | passStmt => simp [body, Statement.passStmt]
  | condition indent => simp [body, Statement.condition]
  | expr => exact Expression.loopsWith_atLevel 0
  | unary op => simp [body]
  | parens => simp [body, Expression.enclosed]
  | index => simp [body, Expression.enclosed]
  | member name => simp [body]
  | value => simp [body, Expression.value, Expression.number, Option.forall]
  | int => simp [body]
  | string => simp [body, Expression.string]
  | nodePath => simp [body, Expression.nodePath]
  | array =>
    simp [body, Expression.array, loopsWith_itemsUntil IsTurn.elements Expression.loopsWith_expr]
  | object => simp [body, Expression.object, loopsWith_itemsUntil IsTurn.pairs (loopsWith_call _)]
  | pair => simp [body, Expression.pair]
  | functionCall name =>
    simp [body, Expression.callArguments,
      loopsWith_parenthesized IsTurn.arguments Expression.loopsWith_expr]

namespace Script

/-- A loop with one of these turns has no other loops in it. -/
theorem IsTurn.loopsWith {σ : Type} {turn : σ → Grammar Rule (Next σ)} (h : IsTurn turn) (x : σ) :
    LoopsWith IsTurn (iterate turn x) := by
  refine ⟨h, ?_⟩
  cases h with
  | block level required => exact loopsWith_blockTurn level required
  | byLine level required => simp [byLineTurn, dropLineOr]
  | skip droppable => simp [skipTurn, dropLineOr]
  | line indent => simp [lineTurn, nextItem]
  | binary level => simp [Expression.binaryTurn, Option.forall]
  | index => simp [Expression.indexTurn]
  | elements => simp [itemsTurn]
  | pairs => simp [itemsTurn]
  | arguments => simp [commaTurn]
  | parameters => simp [commaTurn]
  | names => simp [commaTurn]
  | variants => simp [Declaration.variantTurn]
  | elifs indent => simp [Statement.elifTurn, Option.forall]
  | cases width => simp [Statement.caseTurn]

/-- A script is read as its run finds. -/
theorem parse_eq_result (source : Text) (depth : Option Int) :
    parse source depth = (run source depth (call Rule.file)).result.1 := by
  unfold parse
  cases run source depth (call Rule.file) <;> rfl

/--
Wherever a rule finishes with something that it has to find, it has moved the cursor on, and so have
the items of a line and the suffixes of a chain; and wherever a turn of a loop asks for another one, it
has moved the cursor on. The rules hold no other loops. Those that take several lines at once come to
the same line by line. So from every cursor a grammar comes to one outcome, which its run gives, without
a loop that takes more turns than there are units ahead and one for the end; and so does every script.
-/
theorem progresses_and_ends :
    (∀ (room : Nat) {α : Type} (rule : Rule α) (c : Cursor),
      Yields room (call rule) c fun v c' => rule.TakesUnit v → c.Precedes c') ∧
    (∀ room indent, MovesOn room (lineItem indent)) ∧
    (∀ room subscripted c, Yields room (Expression.chainEnd subscripted) c fun v c' =>
      v = subscripted ∧ c' = c ∨ c.Precedes c') ∧
    (∀ {σ : Type} (turn : σ → Grammar Rule (Next σ)), IsTurn turn →
      (∀ room, TurnMovesOn room turn) ∧ ∀ x, LoopsWith IsTurn (iterate turn x)) ∧
    (∀ {α : Type} (rule : Rule α), LoopsWith IsTurn rule.body) ∧
    (∀ room droppable, Grammar.run room (iterate (skipTurn droppable) () : Grammar Rule Unit)
      = Parser.read (Reader.skip (Text.droppedLength droppable false))) ∧
    (∀ room level required lines scope c journal,
      (Grammar.run room (iterate (byLineTurn level required) lines) scope c journal).result
        = (Grammar.run room (iterate (blockTurn level required) lines) scope c journal).result) ∧
    (∀ (bound room : Nat) {α : Type} (g : Grammar Rule α), LoopsWith IsTurn g →
      ∀ scope c journal outcome, c.ahead.length < bound →
        (Evaluates bound room g scope c journal outcome
          ↔ outcome = Grammar.run room g scope c journal)) ∧
    ∀ (source : Text) (depth : Option Int),
      parse source depth = (run source depth (call Rule.file)).result.1 ∧
      ∀ outcome, Evaluates (source.length + 1) (depthLimit depth).toNat (call Rule.file)
          ⟨[], 0, depthLimit depth⟩ (Cursor.ofText source) [] outcome
        ↔ outcome = run source depth (call Rule.file) := by
  -- the evaluation knows no bound for its loops; that the run is one of it needs that turns move on
  have hcourse : ∀ (bound room : Nat) {α : Type} (g : Grammar Rule α), LoopsWith IsTurn g →
      HasCourse bound room g (Evaluates bound room g) := fun bound room α g h =>
    hasCourse_evaluates (fun turn hturn room => IsTurn.turnsAdvance hturn room) Rule.loopsWith_body h
  refine ⟨fun room α rule c => Rule.yields_precedes room rule c,
    fun room indent => (advances_lineItem (Rule.allAdvance room) indent).movesOn,
    fun room subscripted c => Expression.yields_chainEnd_precedes room subscripted c,
    fun turn hturn => ⟨fun room => (hturn.turnsAdvance room).movesOn, hturn.loopsWith⟩,
    Rule.loopsWith_body,
    fun room droppable => run_iterate_skipTurn Rule room droppable,
    result_iterate_byLineTurn,
    fun bound room α g h => hcourse bound room g h,
    fun source depth => ⟨parse_eq_result source depth, ?_⟩⟩
  intro outcome
  exact hcourse _ _ _ (loopsWith_call Rule.file) _ _ _ outcome (Nat.lt_succ_self source.length)

/-- Blank lines and a comment at another indentation stand in a block. -/
theorem progresses_and_ends_if : ∃ outcome : Outcome Block,
    Evaluates (List.length ("if a:\n\n # b\n  c\n" : Text) + 1) (depthLimit none).toNat
      (call Rule.file) ⟨[], 0, depthLimit none⟩ (Cursor.ofText "if a:\n\n # b\n  c\n") [] outcome ∧
    outcome.Meets (fun lines c _ => lines.length = 1 ∧ c.ahead.isEmpty = true)
      fun _ _ => False := by
  have hends := (progresses_and_ends.2.2.2.2.2.2.2.2 "if a:\n\n # b\n  c\n" none).2
  exact ⟨_, (hends _).mpr rfl, by decide +kernel⟩

end Script

end GDScript
