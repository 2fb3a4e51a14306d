import GDScript.Proofs.Taking

/-!
# Runs with more room

More room for rules changes nothing but where a run is stopped because there is none left: a run
either ends as it does with more room, or fails because rules are nested too deeply
(`Grammar.run_eq_or_isTooDeep`). Such a failure is not recovered from, so it ends every run that it
is a part of.
-/

namespace GDScript

/-- The run was stopped because there was no room left for another rule. -/
def Outcome.IsTooDeep {α : Type} (outcome : Outcome α) : Prop :=
  ∃ e journal, outcome = .failed (.parse e) journal ∧ e.code = .nestingTooDeep ∧
    e.recoverable = false

namespace Parser

variable {α β σ : Type}

/-- Wherever it starts, the first parser ends as the second one does, or for lack of room. -/
def EqOrTooDeep (p q : Parser α) : Prop :=
  ∀ scope cursor journal, p scope cursor journal = q scope cursor journal ∨
    (p scope cursor journal).IsTooDeep

theorem EqOrTooDeep.refl (p : Parser α) : EqOrTooDeep p p := fun _ _ _ => .inl rfl

/-- A parser that has no room fails for that reason. -/
theorem eqOrTooDeep_tooDeep (q : Parser α) : EqOrTooDeep tooDeep q :=
  fun scope cursor _ => .inr ⟨scope.tooDeep cursor.location, _, rfl, rfl, rfl⟩

/-- A run whose first part ends for lack of room ends for that reason as well. -/
theorem EqOrTooDeep.bind {p p' : Parser α} {f f' : α → Parser β} (hp : EqOrTooDeep p p')
    (hf : ∀ v, EqOrTooDeep (f v) (f' v)) : EqOrTooDeep (Parser.bind p f) (Parser.bind p' f') := by
  intro scope cursor journal
  rcases hp scope cursor journal with heq | ⟨e, j, hfail, hcode, hrec⟩
  · simp only [Parser.bind, heq]
    cases p' scope cursor journal with
    | finished v c j => exact hf v scope c j
    | failed failure j => exact .inl rfl
  · exact .inr ⟨e, j, by simp only [Parser.bind, hfail], hcode, hrec⟩

/-- A rule that is entered has the scope of its body. -/
theorem EqOrTooDeep.within {p p' : Parser α} (label : Text) (hp : EqOrTooDeep p p') :
    EqOrTooDeep (Parser.within label p) (Parser.within label p') :=
  fun _ cursor journal => hp _ cursor journal

theorem EqOrTooDeep.bracketed {p p' : Parser α} (hp : EqOrTooDeep p p') :
    EqOrTooDeep (Parser.bracketed p) (Parser.bracketed p') :=
  fun _ cursor journal => hp _ cursor journal

/-- A lack of room is not recovered from. -/
theorem recoverable?_eq_none {e : ParseError} (h : e.recoverable = false) :
    (Failure.parse e).recoverable? = none := by
  rw [Failure.recoverable?, h, if_neg Bool.false_ne_true]

/-- An attempt passes a lack of room on. -/
theorem EqOrTooDeep.attempt {p p' : Parser α} (hp : EqOrTooDeep p p') :
    EqOrTooDeep (Parser.attempt p) (Parser.attempt p') := by
  intro scope cursor journal
  rcases hp scope cursor journal with heq | ⟨e, j, hfail, hcode, hrec⟩
  · exact .inl (by simp only [Parser.attempt, heq])
  · refine .inr ⟨e, j, ?_, hcode, hrec⟩
    simp only [Parser.attempt, hfail, recoverable?_eq_none hrec]

/-- So does an alternative, and the other one is tried in either run or in none. -/
theorem EqOrTooDeep.orElse {p p' q q' : Parser α} (hp : EqOrTooDeep p p')
    (hq : EqOrTooDeep q q') : EqOrTooDeep (Parser.orElse p q) (Parser.orElse p' q') := by
  intro scope cursor journal
  -- a lack of room is not recovered from, so the second alternative is not tried after it
  rcases hp scope cursor journal with heq | ⟨e, j, hfail, hcode, hrec⟩
  · simp only [Parser.orElse, heq]
    cases p' scope cursor journal with
    | finished v c j => exact .inl rfl
    | failed failure j =>
      cases hfirst : failure.recoverable? with
      | none => exact .inl (by simp only [hfirst])
      | some first =>
        rcases hq scope cursor j with heq' | ⟨e, j', hfail, hcode, hrec⟩
        · exact .inl (by simp only [hfirst, heq'])
        · refine .inr ⟨e, j', ?_, hcode, hrec⟩
          simp only [hfirst, hfail, recoverable?_eq_none hrec]
  · refine .inr ⟨e, j, ?_, hcode, hrec⟩
    simp only [Parser.orElse, hfail, recoverable?_eq_none hrec]

theorem EqOrTooDeep.rewindIf {p p' : Parser α} (forget : α → Bool) (hp : EqOrTooDeep p p') :
    EqOrTooDeep (Parser.rewindIf forget p) (Parser.rewindIf forget p') := by
  intro scope cursor journal
  rcases hp scope cursor journal with heq | ⟨e, j, hfail, hcode, hrec⟩
  · exact .inl (by simp only [Parser.rewindIf, heq])
  · exact .inr ⟨e, j, by simp only [Parser.rewindIf, hfail], hcode, hrec⟩

/-- The turns are the same ones until room is lacking. -/
theorem EqOrTooDeep.turns {turn turn' : σ → Parser (Next σ)}
    (h : ∀ x, EqOrTooDeep (turn x) (turn' x)) (n : Nat) (x : σ) :
    EqOrTooDeep (Parser.turns turn n x) (Parser.turns turn' n x) := by
  induction n generalizing x with
  | zero => exact .refl _
  | succ n ih =>
    refine .bind (h x) fun next => ?_
    cases next with
    | again y => exact ih y
    | done y => exact .refl _

theorem EqOrTooDeep.iterate {turn turn' : σ → Parser (Next σ)}
    (h : ∀ x, EqOrTooDeep (turn x) (turn' x)) (x : σ) :
    EqOrTooDeep (Parser.iterate turn x) (Parser.iterate turn' x) :=
  fun scope cursor journal => EqOrTooDeep.turns h _ x scope cursor journal

/-- What got furthest is the same as long as the runs are. -/
theorem EqOrTooDeep.blame {p p' : Parser α} (hp : EqOrTooDeep p p') :
    EqOrTooDeep (Parser.blame p) (Parser.blame p') := by
  intro scope cursor journal
  simp only [Parser.blame]
  cases journal.furthest with
  | none => exact hp scope cursor journal
  | some e =>
    dsimp only
    split
    · exact .inl rfl
    · exact hp scope cursor journal

theorem EqOrTooDeep.watch {p p' : Parser Finding} (step : Text) (hp : EqOrTooDeep p p') :
    EqOrTooDeep (Parser.watch step p) (Parser.watch step p') := by
  intro scope cursor journal
  rcases hp scope cursor journal with heq | ⟨e, j, hfail, hcode, hrec⟩
  · exact .inl (by simp only [Parser.watch, heq])
  · simp only [Parser.watch, hfail]
    exact .inr ⟨e, _, rfl, hcode, hrec⟩

end Parser

namespace Grammar

open GDScript.Parser (EqOrTooDeep)

variable {R : Type → Type} [RuleSet R] {α : Type}

/-- Ways to enter rules that differ in room only make runs that differ in room only. -/
theorem runWith_eqOrTooDeep {enter enter' : Entry R}
    (h : ∀ (β : Type) (label : Text) (g : Grammar R β),
      EqOrTooDeep (enter β label g) (enter' β label g)) (g : Grammar R α) :
    EqOrTooDeep (runWith enter g) (runWith enter' g) := by
  induction g with
  | pure | read | note | here | nesting | abort => exact .refl _
  | bind _ _ ih ihf => exact .bind ih ihf
  | call rule => exact h _ _ _
  | within label g => exact h _ _ _
  | bracketed _ ih => exact .bracketed ih
  | attempt _ ih => exact .attempt ih
  | orElse _ _ ih ih' => exact .orElse ih ih'
  | rewindIf forget _ ih => exact .rewindIf forget ih
  | iterate _ x ih => exact .iterate ih x
  | blame _ ih => exact .blame ih
  | watch step _ ih => exact .watch step ih

/-- A rule that is entered with less room ends as it does with more, or for lack of it. -/
theorem entry_eqOrTooDeep (room : Nat) (label : Text) (g : Grammar R α) :
    EqOrTooDeep (entry room α label g) (entry (room + 1) α label g) := by
  induction room generalizing α label g with
  | zero => exact Parser.eqOrTooDeep_tooDeep _
  | succ room ih =>
    -- with one rule entered, one less fits on either side
    refine .within label ?_
    rw [run_eq_runWith, run_eq_runWith]
    exact runWith_eqOrTooDeep (fun _ label g => ih label g) g

/-- A run ends as it does with more room, or for lack of room. -/
theorem run_eq_or_isTooDeep {room room' : Nat} (hroom : room ≤ room') (g : Grammar R α)
    (scope : Scope) (cursor : Cursor) (journal : Journal) :
    run room g scope cursor journal = run room' g scope cursor journal ∨
      (run room g scope cursor journal).IsTooDeep := by
  -- one more rule at a time: a run that ends for lack of room does so with less room as well
  induction hroom with
  | refl => exact .inl rfl
  | @step room' _ ih =>
    rcases ih with heq | hdeep
    · rw [heq, run_eq_runWith, run_eq_runWith]
      exact runWith_eqOrTooDeep (fun _ label g => entry_eqOrTooDeep room' label g) g scope cursor
        journal
    · exact .inr hdeep

end Grammar

end GDScript
