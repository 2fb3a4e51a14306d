import GDScript.Proofs.Report.Telling
import GDScript.Proofs.Stuck

/-!
# Only the depth limit is final

A run that fails in a rule fails with an error, and if nothing recovers from this error, it says that
rules are nested too deeply (`Rule.failsRegularly`). A file as a whole is the one exception: it may raise
again whatever its run has written down before.
-/

namespace GDScript

open Grammar

/-- The failure is an error that is recovered from, or says that rules are nested too deeply. -/
def Failure.IsRegular (failure : Failure) : Prop :=
  ∃ e, failure = .parse e ∧ (e.recoverable = false → e.code = .nestingTooDeep)

/-- A failure that is not recovered from exceeds the limit. -/
theorem Failure.IsRegular.exists_of_recoverable?_eq_none {failure : Failure} (h : failure.IsRegular)
    (hfinal : failure.recoverable? = none) : ∃ e, failure = .parse e ∧ e.code = .nestingTooDeep := by
  obtain ⟨e, rfl, hcode⟩ := h
  refine ⟨e, rfl, hcode (Bool.eq_false_iff.mpr fun hrec => ?_)⟩
  exact absurd ((recoverable?_parse hrec).symm.trans hfinal) (by simp)

namespace Grammar

variable {R : Type → Type} [RuleSet R] {α β σ : Type} {room : Nat}

/-- Wherever it starts, a run of the grammar that fails does so with such a failure. -/
def FailsRegularly (room : Nat) (g : Grammar R α) : Prop :=
  ∀ c journal, Leads room g c journal (fun _ _ _ => True) fun failure _ => failure.IsRegular

theorem failsRegularly_pure (v : α) : FailsRegularly room (Pure.pure v : Grammar R α) :=
  fun _ _ => leads_pure trivial

theorem FailsRegularly.bind {g : Grammar R α} {f : α → Grammar R β} (hg : FailsRegularly room g)
    (hf : ∀ v, FailsRegularly room (f v)) : FailsRegularly room (g >>= f) :=
  fun c journal => (hg c journal).bind fun v c' journal' _ => hf v c' journal'

/-- The complaint of a reader can be recovered from. -/
theorem failsRegularly_read (reader : Reader α) :
    FailsRegularly room (read reader : Grammar R α) :=
  fun _ _ => leads_read (fun _ _ _ => trivial) fun _ _ _ =>
    ⟨_, rfl, fun hfinal => Bool.noConfusion hfinal⟩

theorem FailsRegularly.attempt {g : Grammar R α} (h : FailsRegularly room g) :
    FailsRegularly room (attempt g) :=
  fun c journal => (h c journal).attempt (fun _ _ _ _ => trivial) fun _ _ _ hregular => hregular

theorem FailsRegularly.orElse {g h : Grammar R α} (hg : FailsRegularly room g)
    (hh : FailsRegularly room h) : FailsRegularly room (orElse g h) :=
  fun c journal => (hg c journal).orElse fun _ journal' _ hfirst =>
    (hh c journal').mono (fun _ _ _ _ => trivial) fun _ _ hsecond => ⟨hsecond, fun _ => hfirst⟩

theorem FailsRegularly.iterate {turn : σ → Grammar R (Next σ)}
    (h : ∀ x, FailsRegularly room (turn x)) (x : σ) : FailsRegularly room (iterate turn x) := by
  intro c journal
  refine Leads.loop (I := fun _ _ _ => True) trivial (fun _ _ _ _ => trivial)
    fun y c' journal' _ => (h y c' journal').mono (fun next _ _ _ => ?_) fun _ _ hregular => hregular
  cases next <;> trivial

/-- A grammar fails like this when the rules do that it calls, and it retries nothing. -/
theorem Uses.failsRegularly {m : Means R} {g : Grammar R α} (h : Uses m g) (hretries : ¬m.retries)
    (hcalls : ∀ {β : Type} (rule : R β), m.calls rule → FailsRegularly room (call rule)) :
    FailsRegularly room g := by
  induction g with
  | pure v => exact failsRegularly_pure v
  | bind g f ih ihf => exact (ih h.1).bind fun v => ihf v (h.2 v)
  | read reader => exact failsRegularly_read reader
  | here => exact fun _ _ => leads_here trivial
  | nesting => exact fun _ _ => leads_nesting fun _ => trivial
  | call rule => exact hcalls rule h
  | bracketed g ih => exact fun c journal => (ih h c journal).bracketed
  | orElse g k ih ih' => exact (ih h.1).orElse (ih' h.2)
  | rewindIf forget g ih => exact fun c journal => (ih h c journal).rewindIf
  | iterate turn x ih => exact FailsRegularly.iterate (fun y => ih y (h y)) x
  | note | abort => exact absurd h hretries
  | attempt | blame | watch => exact absurd h.1 hretries
  | within => exact h.elim

end Grammar

/-! ### The rules of a script -/

namespace Rule

/-- Any readers, and rules for parts of a script. -/
def partMeans : Means Rule := ⟨fun _ => True, fun rule => rule.IsPart, False⟩

@[simp] theorem reads_partMeans {β : Type} (reader : Reader β) :
    partMeans.reads reader = True := rfl

@[simp] theorem calls_partMeans {β : Type} (rule : Rule β) :
    partMeans.calls rule = rule.IsPart := rfl

theorem EntersAnywhere.isPart {α : Type} {rule : Rule α} (h : rule.EntersAnywhere) :
    rule.IsPart := by
  cases rule <;> first | exact h | trivial

/-- What may be entered anywhere retries nothing, and calls rules for parts of a script. -/
theorem uses_body_partMeans {α : Type} {rule : Rule α} (h : rule.EntersAnywhere) :
    Uses partMeans rule.body := by
  by_cases hopens : rule.OpensBlock
  · cases rule with
    | indentedBlock header => simp [body, Script.indentedBlock, Statement.blockOpening, IsPart]
    | matchStmt indent =>
      simp [body, Statement.matchStmt, Statement.blockOpening, Expression.expr, IsPart]
    | _ => exact hopens.elim
  · exact (uses_body_anywhere h hopens).mono (fun _ _ => trivial) (fun _ => EntersAnywhere.isPart) id

end Rule

namespace Script

variable {room : Nat}
  (hrules : ∀ {α : Type} (rule : Rule α), rule.IsPart → FailsRegularly room (call rule))

include hrules

/-- A block notes the line that it cannot take, and fails with a line that it has to take. -/
theorem failsRegularly_block (level : Nat) (required : Bool) :
    FailsRegularly room (block level required) := by
  have hline : FailsRegularly room (call (Rule.line level)) := hrules (.line level) trivial
  have hblockLine : ∀ required, FailsRegularly room (blockLine level required) := by
    intro required c journal
    exact leads_blockLine (fun _ => trivial) (fun _ => leads_commentLine fun _ _ => trivial)
      (fun _ _ _ => trivial) (fun _ _ _ => hline _ journal) fun _ _ _ => hline.attempt _ journal
  rw [block_eq]
  refine FailsRegularly.bind (FailsRegularly.iterate (fun lines => ?_) []) fun lines =>
    failsRegularly_pure _
  refine (hblockLine _).bind fun found => ?_
  cases found <;> exact failsRegularly_pure _

end Script

/-- Every rule for a part of a script fails like this. -/
theorem Rule.failsRegularly (room : Nat) {α : Type} (rule : Rule α) (h : rule.IsPart) :
    FailsRegularly room (call rule) := by
  intro c journal
  refine leads_call_of_bodies (S := fun rule _ _ => rule.IsPart)
    (T := fun _ _ _ _ _ _ => True) (E := fun failure _ => failure.IsRegular)
    (fun _ scope c _ _ => ⟨scope.tooDeep c.location, rfl, fun _ => rfl⟩)
    (fun room ih α rule c journal hpart => ?_) room rule c journal h
  have hrules : ∀ {β : Type} (rule : Rule β), rule.IsPart → FailsRegularly room (call rule) :=
    fun rule hpart c journal => ih rule c journal hpart
  by_cases hanywhere : rule.EntersAnywhere
  · exact (uses_body_partMeans hanywhere).failsRegularly id (fun rule hcalls => hrules rule hcalls)
      c journal
  · cases rule with
    | file => exact hpart.elim
    | block level required => exact Script.failsRegularly_block hrules level required c journal
    | _ => exact absurd trivial hanywhere

end GDScript
