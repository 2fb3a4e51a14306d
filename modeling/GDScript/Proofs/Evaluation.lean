import GDScript.Proofs.Unrolling

/-!
# Loops without a bound

A run gives each of its loops a number of turns from the start, so that it is a function. Here a loop
goes on until one of its turns asks for the end or fails: `Grammar.Evaluates bound room g` relates a
scope, a cursor and a journal to the outcomes that `g` can come to in this way, if no loop takes more
than `bound` turns. So a grammar that goes round forever has no outcome at all.

Where the turns that ask for another one all take something, the run is the only outcome, and no loop
takes more turns than one for each unit ahead and one for the end (`Grammar.hasCourse_evaluates`). It
is enough to know this of the turns that are written down in the rules, which `Grammar.LoopsWith`
collects.
-/

namespace GDScript

/-- How a run may end, from a scope, a cursor and a journal on. -/
abbrev Course (α : Type) := Scope → Cursor → Journal → Outcome α → Prop

namespace Course

variable {α β σ : Type}

/-- As the parser ends. -/
def of (p : Parser α) : Course α := fun scope c journal outcome => outcome = p scope c journal

/-- As a parser ends that is built from another one, which ends as the course does. -/
def through (build : Parser α → Parser β) (p : Course α) : Course β :=
  fun scope c journal outcome => ∃ inner, p scope c journal inner ∧
    outcome = build (fun _ _ _ => inner) scope c journal

/-- One course and, with what was found, another one. -/
inductive Bind (p : Course α) (f : α → Course β) (scope : Scope) (c : Cursor) (journal : Journal) :
    Outcome β → Prop where
  | failed {failure : Failure} {journal' : Journal}
      (h : p scope c journal (.failed failure journal')) :
      Bind p f scope c journal (.failed failure journal')
  | finished {v : α} {c' : Cursor} {journal' : Journal} {outcome : Outcome β}
      (h : p scope c journal (.finished v c' journal'))
      (hrest : f v scope c' journal' outcome) : Bind p f scope c journal outcome

/-- The second course where the first one fails recoverably. -/
inductive OrElse (p q : Course α) (scope : Scope) (c : Cursor) (journal : Journal) :
    Outcome α → Prop where
  | finished {v : α} {c' : Cursor} {journal' : Journal}
      (h : p scope c journal (.finished v c' journal')) :
      OrElse p q scope c journal (.finished v c' journal')
  | final {failure : Failure} {journal' : Journal}
      (h : p scope c journal (.failed failure journal')) (hfinal : failure.recoverable? = none) :
      OrElse p q scope c journal (.failed failure journal')
  | second {failure : Failure} {e : ParseError} {journal' : Journal} {outcome : Outcome α}
      (h : p scope c journal (.failed failure journal')) (he : failure.recoverable? = some e)
      (hsecond : q scope c journal' outcome) : OrElse p q scope c journal
        (Parser.orElse (fun _ _ _ => .failed failure journal') (fun _ _ _ => outcome) scope c journal)

/-- The failure that got furthest, if it lies at the cursor or after it; otherwise a course. -/
inductive Blame (p : Course α) (scope : Scope) (c : Cursor) (journal : Journal) :
    Outcome α → Prop where
  | raised {e : ParseError} (he : journal.furthest = some e)
      (hle : c.location.offset ≤ e.location.offset) :
      Blame p scope c journal (.failed (.parse e) journal)
  | otherwise {outcome : Outcome α}
      (hnone : ∀ e, journal.furthest = some e → ¬c.location.offset ≤ e.location.offset)
      (h : p scope c journal outcome) : Blame p scope c journal outcome

/-- So many turns, the last of which asks for the end or fails. -/
inductive Turns (turn : σ → Course (Next σ)) (scope : Scope) :
    Nat → σ → Cursor → Journal → Outcome σ → Prop where
  | failed {x : σ} {c : Cursor} {failure : Failure} {journal journal' : Journal}
      (h : turn x scope c journal (.failed failure journal')) :
      Turns turn scope 1 x c journal (.failed failure journal')
  | done {x y : σ} {c c' : Cursor} {journal journal' : Journal}
      (h : turn x scope c journal (.finished (.done y) c' journal')) :
      Turns turn scope 1 x c journal (.finished y c' journal')
  | again {n : Nat} {x y : σ} {c c' : Cursor} {journal journal' : Journal} {outcome : Outcome σ}
      (h : turn x scope c journal (.finished (.again y) c' journal'))
      (hrest : Turns turn scope n y c' journal' outcome) :
      Turns turn scope (n + 1) x c journal outcome

/-- Turns until the end, but no more than the bound. -/
def Loop (bound : Nat) (turn : σ → Course (Next σ)) (x : σ) : Course σ :=
  fun scope c journal outcome => ∃ n ≤ bound, Turns turn scope n x c journal outcome

end Course

namespace Grammar

variable {R : Type → Type} {α β σ : Type}

/-! ### Evaluating a grammar -/

section Evaluating

variable [RuleSet R]

/-- How a grammar may end, if the bodies of rules may end as `enter` says. -/
def EvaluatesWith (bound : Nat) (enter : (β : Type) → Text → Grammar R β → Course β) :
    {α : Type} → Grammar R α → Course α
  | _, .pure v => Course.of (Parser.pure v)
  | _, .bind g f => Course.Bind (EvaluatesWith bound enter g) fun v => EvaluatesWith bound enter (f v)
  | _, .read reader => Course.of (Parser.read reader)
  | _, .note complaint => Course.of (Parser.note complaint)
  | _, .here => Course.of Parser.here
  | _, .nesting => Course.of Parser.nesting
  | _, .abort defect => Course.of (Parser.abort defect)
  | _, .call rule => enter _ (RuleSet.label rule) (RuleSet.body rule)
  | _, .within label g => enter _ label g
  | _, .bracketed g => fun scope =>
    EvaluatesWith bound enter g { scope with nesting := scope.nesting + 1 }
  | _, .attempt g => Course.through Parser.attempt (EvaluatesWith bound enter g)
  | _, .orElse g h => Course.OrElse (EvaluatesWith bound enter g) (EvaluatesWith bound enter h)
  | _, .rewindIf forget g => Course.through (Parser.rewindIf forget) (EvaluatesWith bound enter g)
  -- the loop alone is bounded, by the turns it may take
  | _, .iterate turn x => Course.Loop bound (fun y => EvaluatesWith bound enter (turn y)) x
  | _, .blame g => Course.Blame (EvaluatesWith bound enter g)
  | _, .watch step g => Course.through (Parser.watch step) (EvaluatesWith bound enter g)
termination_by structural _ g => g

/-- How a grammar may end with room for so many rules, if no loop takes more turns than the bound. -/
def Evaluates (bound : Nat) : (room : Nat) → {α : Type} → Grammar R α → Course α
  | 0, _, g => EvaluatesWith bound (fun _ _ _ => Course.of Parser.tooDeep) g
  | room + 1, _, g => EvaluatesWith bound (fun _ label body scope c =>
      Evaluates bound room body { scope with frames := ⟨label, c.location⟩ :: scope.frames } c) g

end Evaluating

/-! ### The loops of a grammar -/

/-- The turns of every loop of the grammar have the property, also of the loops in them. -/
def LoopsWith (P : {σ : Type} → (σ → Grammar R (Next σ)) → Prop) : {α : Type} → Grammar R α → Prop
  | _, .pure _ | _, .read _ | _, .note _ | _, .here | _, .nesting | _, .abort _ | _, .call _ => True
  | _, .bind g f => LoopsWith P g ∧ ∀ v, LoopsWith P (f v)
  | _, .within _ g | _, .bracketed g | _, .attempt g | _, .rewindIf _ g | _, .blame g
  | _, .watch _ g => LoopsWith P g
  | _, .orElse g h => LoopsWith P g ∧ LoopsWith P h
  | _, .iterate turn _ => P turn ∧ ∀ x, LoopsWith P (turn x)
termination_by structural _ g => g

section LoopsWith

variable {P : {σ : Type} → (σ → Grammar R (Next σ)) → Prop}

@[simp] theorem loopsWith_pure (v : α) : LoopsWith P (Pure.pure v : Grammar R α) := trivial

/-- The loops of a sequence are those of its two parts. -/
@[simp] theorem loopsWith_bind (g : Grammar R α) (f : α → Grammar R β) :
    LoopsWith P (g >>= f) ↔ LoopsWith P g ∧ ∀ v, LoopsWith P (f v) := Iff.rfl

@[simp] theorem loopsWith_read (reader : Reader α) :
    LoopsWith P (read reader : Grammar R α) := trivial

@[simp] theorem loopsWith_note (complaint : Text → Complaint) :
    LoopsWith P (note complaint : Grammar R Unit) := trivial

@[simp] theorem loopsWith_here : LoopsWith P (here : Grammar R Location) := trivial

@[simp] theorem loopsWith_nesting : LoopsWith P (nesting : Grammar R Nat) := trivial

/-- A call has no loops of its own; those of the rule belong to its body. -/
@[simp] theorem loopsWith_call (rule : R α) : LoopsWith P (call rule) := trivial

@[simp] theorem loopsWith_bracketed (g : Grammar R α) :
    LoopsWith P (bracketed g) ↔ LoopsWith P g := Iff.rfl

@[simp] theorem loopsWith_attempt (g : Grammar R α) :
    LoopsWith P (attempt g) ↔ LoopsWith P g := Iff.rfl

@[simp] theorem loopsWith_rewindIf (forget : α → Bool) (g : Grammar R α) :
    LoopsWith P (rewindIf forget g) ↔ LoopsWith P g := Iff.rfl

@[simp] theorem loopsWith_blame (g : Grammar R α) :
    LoopsWith P (blame g) ↔ LoopsWith P g := Iff.rfl

/-- A loop has the property itself, and so have the loops within its turns. -/
@[simp] theorem loopsWith_iterate (turn : σ → Grammar R (Next σ)) (x : σ) :
    LoopsWith P (iterate turn x) ↔ P turn ∧ ∀ y, LoopsWith P (turn y) := Iff.rfl

/-- Of a condition, the branches count where they are taken. -/
@[simp] theorem loopsWith_ite {c : Prop} [Decidable c] (g h : Grammar R α) :
    LoopsWith P (if c then g else h) ↔ (c → LoopsWith P g) ∧ (¬c → LoopsWith P h) := by
  split <;> simp [*]

@[simp] theorem loopsWith_look (f : Text → α) : LoopsWith P (look f : Grammar R α) := trivial

@[simp] theorem loopsWith_expected (what : Text) :
    LoopsWith P (expected what : Grammar R α) := trivial

@[simp] theorem loopsWith_check (text : Text) : LoopsWith P (check text : Grammar R Bool) := trivial

@[simp] theorem loopsWith_consume (text : Text) :
    LoopsWith P (consume text : Grammar R Bool) := trivial

@[simp] theorem loopsWith_expect (text : Text) :
    LoopsWith P (expect text : Grammar R Unit) := trivial

@[simp] theorem loopsWith_expectKeyword (word : Text) :
    LoopsWith P (expectKeyword word : Grammar R Unit) := trivial

@[simp] theorem loopsWith_skipSpaces : LoopsWith P (skipSpaces : Grammar R Unit) := trivial

/-- A gap has no loop: the readers go through the blanks. -/
@[simp] theorem loopsWith_gap : LoopsWith P (gap : Grammar R Unit) := by
  simp [gap]

@[simp] theorem loopsWith_optional (g : Grammar R (Option α)) :
    LoopsWith P (optional g) ↔ LoopsWith P g := Iff.rfl

/-- What is required is read, without a loop. -/
@[simp] theorem loopsWith_require (what : Text) (reader : Reader (Option α)) :
    LoopsWith P (require what reader : Grammar R α) := by
  simp [require, Option.forall]

/-- The loops of a choice are those of its alternatives. -/
theorem loopsWith_choice {alternatives : List (Grammar R α)}
    (h : ∀ g ∈ alternatives, LoopsWith P g) : LoopsWith P (choice alternatives) := by
  induction alternatives with
  | nil => trivial
  | cons g rest ih =>
    have hg := h g List.mem_cons_self
    have hrest := ih fun k hk => h k (List.mem_cons_of_mem g hk)
    cases rest with
    | nil => exact hg
    | cons => exact ⟨hg, hrest⟩

/-- A list between parentheses is a loop over its items. -/
theorem loopsWith_parenthesized {item : Grammar R α} (hturn : P (commaTurn item))
    (hitem : LoopsWith P item) : LoopsWith P (parenthesized item) := by
  simp [parenthesized, commaSeparated_eq, hturn, commaTurn, hitem]

/-- So is a list up to its closing bracket. -/
theorem loopsWith_itemsUntil {closer : Text} {item : Grammar R α}
    (hturn : P (itemsTurn closer item)) (hitem : LoopsWith P item) :
    LoopsWith P (itemsUntil closer item) := by
  simp [itemsUntil_eq, hturn, itemsTurn, hitem]

end LoopsWith

/-! ### Evaluating is running -/

section Running

variable [RuleSet R] {bound room : Nat}

/-- Where the bound exceeds what is ahead, the course ends as the run does, and in no other way. -/
def HasCourse (bound room : Nat) (g : Grammar R α) (p : Course α) : Prop :=
  ∀ scope c journal outcome, c.ahead.length < bound →
    (p scope c journal outcome ↔ outcome = run room g scope c journal)

variable {g : Grammar R α} {p : Course α}

/-- The course that ends as the run does is one. -/
theorem HasCourse.run (h : HasCourse bound room g p) {c : Cursor} (hc : c.ahead.length < bound)
    (scope : Scope) (journal : Journal) : p scope c journal (Grammar.run room g scope c journal) :=
  (h scope c journal _ hc).mpr rfl

/-- Every course ends as the run does. -/
theorem HasCourse.eq (h : HasCourse bound room g p) {scope : Scope} {c : Cursor} {journal : Journal}
    {outcome : Outcome α} (hc : c.ahead.length < bound) (hp : p scope c journal outcome) :
    Grammar.run room g scope c journal = outcome :=
  ((h scope c journal outcome hc).mp hp).symm

/-- A grammar that is run by a parser ends as this one does. -/
theorem hasCourse_of {q : Parser α} (h : Grammar.run room g = q) :
    HasCourse bound room g (Course.of q) := by
  intro scope c journal outcome _
  rw [h]
  rfl

/-- The parser asks the one that it is built from only about where it starts itself. -/
theorem HasCourse.through {k : Grammar R β} {build : Parser α → Parser β}
    (h : HasCourse bound room g p) (hrun : Grammar.run room k = build (Grammar.run room g))
    (hbuild : ∀ q q' scope c journal, q scope c journal = q' scope c journal →
      build q scope c journal = build q' scope c journal) :
    HasCourse bound room k (Course.through build p) := by
  intro scope c journal outcome hc
  rw [hrun]
  constructor
  · rintro ⟨inner, hinner, rfl⟩
    exact hbuild _ _ scope c journal (h.eq hc hinner).symm
  · rintro rfl
    exact ⟨_, h.run hc scope journal, hbuild _ _ scope c journal rfl⟩

/-- A sequence has a course if both parts have one: what is ahead never gets longer. -/
theorem HasCourse.bind {f : α → Grammar R β} {q : α → Course β} (hg : HasCourse bound room g p)
    (hf : ∀ v, HasCourse bound room (f v) (q v)) : HasCourse bound room (g >>= f) (Course.Bind p q) := by
  intro scope c journal outcome hc
  constructor
  · intro h
    cases h with
    | failed h => exact (run_bind_of_failed (hg.eq hc h)).symm
    | finished h hrest =>
      have hrun := hg.eq hc h
      -- the second part starts where the first one has come to, so the bound still holds
      have hreach := yields_reaches room g c _ _ _ _ _ hrun
      rw [run_bind_of_finished hrun, (hf _).eq (Nat.lt_of_le_of_lt hreach.length_le hc) hrest]
  · rintro rfl
    have hfirst := hg.run hc scope journal
    cases hrun : Grammar.run room g scope c journal with
    | failed failure journal' =>
      rw [hrun] at hfirst
      rw [run_bind_of_failed hrun]
      exact .failed hfirst
    | finished v c' journal' =>
      rw [hrun] at hfirst
      have hreach := yields_reaches room g c _ _ _ _ _ hrun
      rw [run_bind_of_finished hrun]
      exact .finished hfirst ((hf v).run (Nat.lt_of_le_of_lt hreach.length_le hc) scope journal')

/-- So has a grammar with another one to fall back on. -/
theorem HasCourse.orElse {k : Grammar R α} {q : Course α} (hg : HasCourse bound room g p)
    (hk : HasCourse bound room k q) : HasCourse bound room (orElse g k) (Course.OrElse p q) := by
  intro scope c journal outcome hc
  rw [run_orElse, Parser.orElse]
  constructor
  · intro h
    cases h with
    | finished h => rw [hg.eq hc h]
    | final h hfinal => simp only [hg.eq hc h, hfinal]
    -- the second alternative starts from the same cursor
    | second h he hsecond => simp only [Parser.orElse, hg.eq hc h, he, hk.eq hc hsecond]
  · rintro rfl
    have hfirst := hg.run hc scope journal
    cases hrun : Grammar.run room g scope c journal with
    | finished v c' journal' =>
      rw [hrun] at hfirst
      exact .finished hfirst
    | failed failure journal' =>
      rw [hrun] at hfirst
      cases he : failure.recoverable? with
      | none =>
        simp only [he]
        exact .final hfirst he
      | some e => exact .second hfirst he (hk.run hc scope journal')

/-- So has one that gives way to the failure that got furthest. -/
theorem HasCourse.blame (hg : HasCourse bound room g p) :
    HasCourse bound room (blame g) (Course.Blame p) := by
  intro scope c journal outcome hc
  have hrun : Grammar.run room (Grammar.blame g) = Parser.blame (Grammar.run room g) := by
    simp only [run_eq_runWith]
    rfl
  rw [hrun, Parser.blame]
  constructor
  · intro h
    cases h with
    | raised he hle => simp only [he, if_pos hle]
    -- either nothing got furthest, or it lies before the cursor
    | otherwise hnone h =>
      rw [hg.eq hc h]
      cases he : journal.furthest with
      | none => rfl
      | some e => exact (if_neg (hnone e he)).symm
  · rintro rfl
    cases he : journal.furthest with
    | none => exact .otherwise (by simp [he]) (hg.run hc scope journal)
    | some e =>
      dsimp only
      split_ifs with hle
      · exact .raised he hle
      · refine .otherwise (fun e' he' => ?_) (hg.run hc scope journal)
        rw [he] at he'
        cases he'
        exact hle

section Loops

variable {turn : σ → Grammar R (Next σ)} {q : σ → Course (Next σ)} {scope : Scope}
  (hturn : TurnsAdvance room turn) (hq : ∀ x, HasCourse bound room (turn x) (q x))

include hturn hq

/-- Turns that end have come to the end that the loop runs to. -/
theorem run_iterate_of_turns {n : Nat} {x : σ} {c : Cursor} {journal : Journal} {outcome : Outcome σ}
    (hc : c.ahead.length < bound) (h : Course.Turns q scope n x c journal outcome) :
    Grammar.run room (iterate turn x) scope c journal = outcome := by
  -- on the turns, each of which is a turn of the run, since the bound still exceeds what is ahead
  induction h with
  | failed h =>
    rw [run_iterate_eq_run_follow hturn, run_bind_of_failed ((hq _).eq hc h)]
  | done h =>
    rw [run_iterate_eq_run_follow hturn, run_bind_of_finished ((hq _).eq hc h), follow, run_pure,
      Parser.pure]
  | again h hrest ih =>
    have hrun := (hq _).eq hc h
    -- what is ahead has become shorter, so that the bound exceeds it all the more
    have hlt := hturn _ _ _ _ _ _ _ hrun
    rw [run_iterate_eq_run_follow hturn, run_bind_of_finished hrun, follow]
    exact ih (Nat.lt_trans hlt hc)

/-- There are turns that end, at most one more than there are units ahead. -/
theorem exists_turns (x : σ) (c : Cursor) (journal : Journal) (hc : c.ahead.length < bound) :
    ∃ n ≤ c.ahead.length + 1,
      Course.Turns q scope n x c journal (Grammar.run room (iterate turn x) scope c journal) := by
  -- on what is ahead, of which each turn takes something
  induction hlength : c.ahead.length using Nat.strongRecOn generalizing x c journal with
  | _ length ih =>
    have hfirst := (hq x).run hc scope journal
    rw [run_iterate_eq_run_follow hturn]
    cases hrun : Grammar.run room (turn x) scope c journal with
    | failed failure journal' =>
      rw [hrun] at hfirst
      rw [run_bind_of_failed hrun]
      exact ⟨1, by omega, .failed hfirst⟩
    | finished next c' journal' =>
      rw [hrun] at hfirst
      have hlt := hturn x c scope journal next c' journal' hrun
      rw [run_bind_of_finished hrun]
      cases next with
      | done y =>
        rw [follow, run_pure, Parser.pure]
        exact ⟨1, by omega, .done hfirst⟩
      | again y =>
        -- the turn has taken a unit, which the turns behind it need no turn for
        obtain ⟨n, hn, hturns⟩ := ih _ (hlength ▸ hlt) y c' journal' (Nat.lt_trans hlt hc) rfl
        exact ⟨n + 1, by omega, .again hfirst hturns⟩

/-- A loop whose turns advance ends as it runs, and within the bound. -/
theorem hasCourse_iterate (x : σ) : HasCourse bound room (iterate turn x) (Course.Loop bound q x) := by
  intro scope c journal outcome hc
  constructor
  · rintro ⟨n, -, hturns⟩
    exact (run_iterate_of_turns hturn hq hc hturns).symm
  · rintro rfl
    obtain ⟨n, hn, hturns⟩ := exists_turns hturn hq x c journal hc
    exact ⟨n, by omega, hturns⟩

end Loops

variable {P : {σ : Type} → (σ → Grammar R (Next σ)) → Prop}

/-- A grammar ends as it evaluates, if the bodies of rules do. -/
theorem hasCourse_evaluatesWith {enter : (β : Type) → Text → Grammar R β → Course β}
    (hP : ∀ {σ : Type} (turn : σ → Grammar R (Next σ)), P turn → TurnsAdvance room turn)
    (hrules : ∀ {β : Type} (rule : R β),
      HasCourse bound room (call rule) (enter β (RuleSet.label rule) (RuleSet.body rule)))
    (hwithin : ∀ {β : Type} (label : Text) (g : Grammar R β), LoopsWith P g →
      HasCourse bound room (within label g) (enter β label g)) (h : LoopsWith P g) :
    HasCourse bound room g (EvaluatesWith bound enter g) := by
  induction g with
  | pure | read | note | here | nesting | abort =>
    exact hasCourse_of (by rw [run_eq_runWith]; rfl)
  | bind g f ih ihf => exact (ih h.1).bind fun v => ihf v (h.2 v)
  | call rule => exact hrules rule
  | within label g => exact hwithin label g h
  | bracketed g ih =>
    intro scope c journal outcome hc
    rw [run_bracketed]
    exact ih h _ c journal outcome hc
  | attempt g ih =>
    refine (ih h).through (run_attempt room g) fun q q' scope c journal hqq => ?_
    rw [Parser.attempt, hqq, Parser.attempt]
  | rewindIf forget g ih =>
    refine (ih h).through (run_rewindIf room forget g) fun q q' scope c journal hqq => ?_
    rw [Parser.rewindIf, hqq, Parser.rewindIf]
  | watch step g ih =>
    refine (ih h).through (by simp only [run_eq_runWith]; rfl) fun q q' scope c journal hqq => ?_
    rw [Parser.watch, hqq, Parser.watch]
  | orElse g k ih ihk => exact (ih h.1).orElse (ihk h.2)
  | blame g ih => exact (ih h).blame
  -- each turn takes a unit, so the bound on turns is met
  | iterate turn x ih => exact hasCourse_iterate (hP turn h.1) (fun y => ih y (h.2 y)) x

/--
If the turns of all loops take something, a grammar comes to one outcome, which is that of its run, and
no loop takes more turns than there are units ahead at the start, and one for the end.
-/
theorem hasCourse_evaluates
    (hP : ∀ {σ : Type} (turn : σ → Grammar R (Next σ)), P turn → ∀ room, TurnsAdvance room turn)
    (hbody : ∀ {β : Type} (rule : R β), LoopsWith P (RuleSet.body rule)) (h : LoopsWith P g) :
    HasCourse bound room g (Evaluates bound room g) := by
  induction room generalizing α g with
  | zero =>
    exact hasCourse_evaluatesWith (fun turn hturn => hP turn hturn 0) (fun _ => hasCourse_of rfl)
      (fun _ _ _ => hasCourse_of rfl) h
  | succ room ih =>
    -- a rule that is entered has less room, and only one more frame around it
    refine hasCourse_evaluatesWith (fun turn hturn => hP turn hturn (room + 1)) (fun rule => ?_)
      (fun label g hg => ?_) h
    · exact fun scope c journal outcome hc => ih (hbody rule) _ c journal outcome hc
    · exact fun scope c journal outcome hc => ih hg _ c journal outcome hc

end Running

end Grammar

end GDScript
