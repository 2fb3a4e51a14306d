import GDScript.Grammar.Language
import GDScript.Proofs.Report.Truth

/-!
# What grammars are made of

Most rules only read, and call other rules: they note nothing and attempt nothing. `Grammar.Uses`
says so of a grammar, with the readers that it uses and the rules that it calls, or it says only which
rules are called. It is read off the grammar without running it, by the simp lemmas below.
-/

namespace GDScript

/-- Readers that may be used, and rules that may be called. -/
structure Means (R : Type → Type) where
  /-- The reader may be used. -/
  reads : {β : Type} → Reader β → Prop
  /-- The rule may be called. -/
  calls : {β : Type} → R β → Prop
  /-- Failures may be noted, given up on and raised again. -/
  retries : Prop

namespace Grammar

variable {R : Type → Type} {α β σ : Type} {m : Means R}

/-- The grammar only uses these means, in sequences, brackets, alternatives and loops. -/
def Uses (m : Means R) : {α : Type} → Grammar R α → Prop
  | _, .pure _ | _, .here | _, .nesting => True
  | _, .bind g f => Uses m g ∧ ∀ v, Uses m (f v)
  | _, .read reader => m.reads reader
  | _, .call rule => m.calls rule
  | _, .bracketed g | _, .rewindIf _ g => Uses m g
  | _, .orElse g h => Uses m g ∧ Uses m h
  | _, .iterate turn _ => ∀ x, Uses m (turn x)
  | _, .note _ | _, .abort _ => m.retries
  | _, .attempt g | _, .blame g | _, .watch _ g => m.retries ∧ Uses m g
  | _, .within _ _ => False
termination_by structural _ g => g

/-! ### Constructors -/

@[simp] theorem uses_pure (v : α) : Uses m (Pure.pure v : Grammar R α) := trivial

/-- Both parts of a sequence count, the second one whatever the first one gives. -/
@[simp] theorem uses_bind (g : Grammar R α) (f : α → Grammar R β) :
    Uses m (g >>= f) ↔ Uses m g ∧ ∀ v, Uses m (f v) := Iff.rfl

/-- A grammar that reads uses its reader. -/
@[simp] theorem uses_read (reader : Reader α) :
    Uses m (read reader : Grammar R α) ↔ m.reads reader := Iff.rfl

@[simp] theorem uses_here : Uses m (here : Grammar R Location) := trivial

@[simp] theorem uses_nesting : Uses m (nesting : Grammar R Nat) := trivial

/-- A grammar that calls a rule uses this rule, not what the rule is made of. -/
@[simp] theorem uses_call (rule : R α) : Uses m (call rule) ↔ m.calls rule := Iff.rfl

/-- Brackets are free, and so is going back. -/
@[simp] theorem uses_bracketed (g : Grammar R α) : Uses m (bracketed g) ↔ Uses m g := Iff.rfl

@[simp] theorem uses_rewindIf (forget : α → Bool) (g : Grammar R α) :
    Uses m (rewindIf forget g) ↔ Uses m g := Iff.rfl

/-- Both alternatives count, also the one that is not reached. -/
@[simp] theorem uses_orElse (g h : Grammar R α) :
    Uses m (orElse g h) ↔ Uses m g ∧ Uses m h := Iff.rfl

/-- Each turn of a loop counts, from any state. -/
@[simp] theorem uses_iterate (turn : σ → Grammar R (Next σ)) (x : σ) :
    Uses m (iterate turn x) ↔ ∀ y, Uses m (turn y) := Iff.rfl

/-- A noted failure needs the leave to retry, whatever it is. -/
@[simp] theorem uses_note (complaint : Text → Complaint) :
    Uses m (note complaint : Grammar R Unit) ↔ m.retries := Iff.rfl

/-- An attempt needs the leave to retry, and what is attempted counts. -/
@[simp] theorem uses_attempt (g : Grammar R α) :
    Uses m (attempt g) ↔ m.retries ∧ Uses m g := Iff.rfl

@[simp] theorem uses_blame (g : Grammar R α) :
    Uses m (blame g) ↔ m.retries ∧ Uses m g := Iff.rfl

/-- Of a condition, the branches count where they are taken. -/
@[simp] theorem uses_ite {c : Prop} [Decidable c] (g h : Grammar R α) :
    Uses m (if c then g else h) ↔ (c → Uses m g) ∧ (¬c → Uses m h) := by
  split <;> simp [*]

/-! ### Common pieces -/

@[simp] theorem uses_look (f : Text → α) :
    Uses m (look f : Grammar R α) ↔ m.reads (Reader.look f) := Iff.rfl

/-- A complaint about what is missing is made by a reader. -/
@[simp] theorem uses_expected (what : Text) :
    Uses m (expected what : Grammar R α) ↔ m.reads (Reader.expected what : Reader α) := Iff.rfl

@[simp] theorem uses_check (text : Text) :
    Uses m (check text : Grammar R Bool) ↔ m.reads (Reader.look (text.isPrefixOf ·)) := Iff.rfl

@[simp] theorem uses_consume (text : Text) :
    Uses m (consume text : Grammar R Bool) ↔ m.reads (Reader.consume text) := Iff.rfl

@[simp] theorem uses_expect (text : Text) :
    Uses m (expect text : Grammar R Unit) ↔ m.reads (Reader.expect text) := Iff.rfl

@[simp] theorem uses_expectKeyword (word : Text) :
    Uses m (expectKeyword word : Grammar R Unit) ↔ m.reads (Reader.expectKeyword word) := Iff.rfl

@[simp] theorem uses_skipSpaces :
    Uses m (skipSpaces : Grammar R Unit) ↔ m.reads Reader.skipSpaces := Iff.rfl

/-- A gap is made by one of two readers: the one within brackets crosses lines. -/
@[simp] theorem uses_gap : Uses m (gap : Grammar R Unit) ↔
    m.reads Reader.skipSpaces ∧ m.reads Reader.skipLayout := by
  constructor
  · intro h
    -- outside of brackets, and within one
    exact ⟨h.2 0, h.2 1⟩
  · rintro ⟨hspaces, hlayout⟩
    exact ⟨trivial, fun n => by cases n <;> assumption⟩

@[simp] theorem uses_optional (g : Grammar R (Option α)) :
    Uses m (optional g) ↔ Uses m g := Iff.rfl

/-- What is required is read, or complained about. -/
@[simp] theorem uses_require (what : Text) (reader : Reader (Option α)) :
    Uses m (require what reader : Grammar R α) ↔
      m.reads reader ∧ m.reads (Reader.expected what : Reader α) := by
  simp [require, Option.forall]

/-- More means allow more. -/
theorem Uses.mono {m' : Means R} {g : Grammar R α} (h : Uses m g)
    (hreads : ∀ {β : Type} (reader : Reader β), m.reads reader → m'.reads reader)
    (hcalls : ∀ {β : Type} (rule : R β), m.calls rule → m'.calls rule)
    (hretries : m.retries → m'.retries) : Uses m' g := by
  -- the rules that are called stay closed: only the grammar itself is gone through
  induction g with
  | pure | here | nesting => trivial
  | bind g f ih ihf => exact ⟨ih h.1, fun v => ihf v (h.2 v)⟩
  | read reader => exact hreads reader h
  | call rule => exact hcalls rule h
  | bracketed g ih | rewindIf forget g ih => exact ih h
  | orElse g k ih ih' => exact ⟨ih h.1, ih' h.2⟩
  | iterate turn x ih => exact fun y => ih y (h y)
  | note | abort => exact hretries h
  | attempt g ih | blame g ih | watch step g ih => exact ⟨hretries h.1, ih h.2⟩
  | within label g => exact h.elim

end Grammar

/-! ### The rules of a script -/

namespace Rule

open Grammar

/-- The rule reads no block of lines. -/
def IsPlain : {α : Type} → Rule α → Prop
  | _, .file | _, .block _ _ | _, .indentedBlock _ | _, .line _ => False
  | _, .decl _ | _, .functionDecl _ | _, .classDecl _ => False
  | _, .stmt _ | _, .ifStmt _ | _, .elifBranch _ | _, .elseBranch _ | _, .whileStmt _
  | _, .forStmt _ | _, .matchStmt _ | _, .matchCase _ | _, .condition _ => False
  | _, _ => True

/-- Readers whose complaints are true, and rules that read no block. -/
def plainMeans : Means Rule := ⟨fun reader => reader.IsHonest, fun rule => rule.IsPlain, False⟩

/-- The readers that rules without blocks may use are the honest ones. -/
@[simp] theorem reads_plainMeans {β : Type} (reader : Reader β) :
    plainMeans.reads reader = reader.IsHonest := rfl

/-- The rules that they may call are again without blocks. -/
@[simp] theorem calls_plainMeans {β : Type} (rule : Rule β) :
    plainMeans.calls rule = rule.IsPlain := rfl

end Rule

open Grammar
open Rule (plainMeans)

namespace Expression

/-- A level of operators uses what its operands use. -/
theorem uses_binary (table : List (Spelling BinaryOp)) {operand : Grammar Rule Expr}
    (h : Uses plainMeans operand) : Uses plainMeans (binary table operand) := by
  simp [binary, h, Option.forall]

@[simp] theorem uses_name : Uses plainMeans name := by
  simp [name]

/-- The name of a type, and what is complained about without one. -/
@[simp] theorem uses_typeHint : Uses plainMeans typeHint := by
  simp [typeHint]

@[simp] theorem uses_expr : Uses plainMeans expr := by
  simp [expr, Rule.IsPlain]

/-- A name, or the call of a function. -/
@[simp] theorem uses_identOrCall : Uses plainMeans identOrCall := by
  simp [identOrCall, Rule.IsPlain]

/-- What follows a value: subscripts, members and calls. -/
@[simp] theorem uses_chain (base : Expr) : Uses plainMeans (chain base) := by
  simp [chain, subscripts, Rule.IsPlain]

/-- A value with what follows it. -/
@[simp] theorem uses_postfixed : Uses plainMeans postfixed := by
  simp [postfixed, primary, Rule.IsPlain]

/-- An operand of the strongest operators. -/
@[simp] theorem uses_unary : Uses plainMeans unary := by
  simp [unary, Option.forall, Rule.IsPlain]

end Expression

namespace Declaration

/-- What follows the sign of a value that is given. -/
@[simp] theorem uses_initializer : Uses plainMeans initializer := by
  simp [initializer]

/-- A name with its type and its value. -/
@[simp] theorem uses_binding : Uses plainMeans binding := by
  simp [binding, annotation]

/-- The parameters of a function. -/
@[simp] theorem uses_functionArgs : Uses plainMeans functionArgs := by
  simp [functionArgs, parenthesized, commaSeparated, Rule.IsPlain]

/-- A type behind its sign uses the reader of that sign. -/
@[simp] theorem uses_typeAfter {reader : Reader Bool} (h : reader.IsHonest) :
    Uses plainMeans (typeAfter reader) := by
  simp [typeAfter, h]

end Declaration

/-- What reads no block uses nothing else. -/
theorem Rule.uses_body {α : Type} {rule : Rule α} (h : rule.IsPlain) :
    Uses plainMeans rule.body := by
  cases rule with
  | varDecl =>
    simp [body, Declaration.varDecl, Declaration.setget, Declaration.accessors]
  | constDecl => simp [body, Declaration.constDecl, Option.forall]
  | extendsDecl => simp [body, Declaration.extendsDecl, Option.forall]
  | classNameDecl => simp [body, Declaration.classNameDecl]
  | signalDecl => simp [body, Declaration.signalDecl, Declaration.signalParams, parenthesized, commaSeparated]
  | enumDecl => simp [body, Declaration.enumDecl, Declaration.variants, IsPlain]
  | enumVariant => simp [body, Declaration.enumVariant]
  | functionArg => simp [body, Declaration.functionArg, Declaration.argAnnotation]
  | assignStmt => simp [body, Statement.assignStmt, Option.forall]
  | returnStmt => simp [body, Statement.returnStmt]
  | passStmt => simp [body, Statement.passStmt]
  | expr =>
    -- one level of operators is the operand of the next
    exact Expression.uses_binary _ (Expression.uses_binary _ (Expression.uses_binary _
      Expression.uses_unary))
  | unary op => simp [body]
  | parens => simp [body, Expression.enclosed]
  | index => simp [body, Expression.enclosed]
  | member name => simp [body]
  | value => simp [body, Expression.value, Expression.number, Option.forall, IsPlain]
  | int => simp [body]
  | string => simp [body, Expression.string]
  | nodePath => simp [body, Expression.nodePath]
  | array => simp [body, Expression.array, itemsUntil]
  | object => simp [body, Expression.object, itemsUntil, IsPlain]
  | pair => simp [body, Expression.pair]
  | functionCall name => simp [body, Expression.callArguments, parenthesized, commaSeparated]
  -- what is left are the rules with blocks
  | _ => exact absurd h (by simp [IsPlain])

end GDScript
