import GDScript.Proofs.Taking

/-!
# What runs find

`Grammar.Yields room g c P` says that every run of `g` from the cursor `c` that finishes finds a
value and a cursor with `P`; nothing is said about runs that fail. Each constructor of `Grammar` has
a rule, so what a grammar finds follows from what its parts find, in whatever way the text ahead
looks. `YieldsIn` says it of the runs inside so many brackets only.

What a rule of the grammar finds is assumed of the rules that its body calls, and shown of the body:
`yields_call_of_bodies` is the induction on the room that makes a theorem of it. `Finds` is the
special case that looks at the value only.
-/

namespace GDScript

/-- A cursor that lies in the text ahead of another one, or is the same. -/
def Cursor.Reaches (c c' : Cursor) : Prop := ∃ k ≤ c.ahead.length, c' = c.advanceBy k

namespace Cursor.Reaches

variable {c c' c'' : Cursor}

theorem refl (c : Cursor) : c.Reaches c := ⟨0, Nat.zero_le _, rfl⟩

/-- What lies ahead of what lies ahead lies ahead. -/
theorem trans (h : c.Reaches c') (h' : c'.Reaches c'') : c.Reaches c'' := by
  obtain ⟨k, hk, rfl⟩ := h
  obtain ⟨l, hl, rfl⟩ := h'
  rw [ahead_advanceBy, List.length_drop] at hl
  exact ⟨k + l, by omega, advanceBy_advanceBy k l c⟩

end Cursor.Reaches

/-- Going forward never leaves the text. -/
theorem Cursor.reaches_advanceBy (c : Cursor) (n : Nat) : c.Reaches (c.advanceBy n) := by
  -- beyond the end of the text the cursor stays at the end
  by_cases h : n ≤ c.ahead.length
  · exact ⟨n, h, rfl⟩
  · refine ⟨c.ahead.length, Nat.le_refl _, ?_⟩
    obtain ⟨k, rfl⟩ : ∃ k, n = c.ahead.length + k := ⟨n - c.ahead.length, by omega⟩
    have hend : (c.advanceBy c.ahead.length).ahead = [] := by
      rw [ahead_advanceBy, List.drop_length]
    rw [← advanceBy_advanceBy, advanceBy_of_ahead_eq_nil hend]

/-- The state that a turn leaves. -/
def Next.state {σ : Type} : Next σ → σ
  | .again x | .done x => x

namespace Grammar

variable {R : Type → Type} [RuleSet R] {α β σ : Type} {room n : Nat} {c : Cursor}

/-- Every run from the cursor that finishes finds a value and a cursor with `P`. -/
def Yields (room : Nat) (g : Grammar R α) (c : Cursor) (P : α → Cursor → Prop) : Prop :=
  ∀ scope journal v c' journal', run room g scope c journal = .finished v c' journal' → P v c'

/-- Every run inside `n` brackets that finishes finds a value and a cursor with `P`. -/
def YieldsIn (room n : Nat) (g : Grammar R α) (c : Cursor) (P : α → Cursor → Prop) : Prop :=
  ∀ scope journal v c' journal', scope.nesting = n →
    run room g scope c journal = .finished v c' journal' → P v c'

/-- What every run finds, those inside some brackets find. -/
theorem Yields.inside {g : Grammar R α} {P : α → Cursor → Prop} (h : Yields room g c P) (n : Nat) :
    YieldsIn room n g c P :=
  fun scope journal v c' journal' _ hrun => h scope journal v c' journal' hrun

/-- A run is inside some number of brackets. -/
theorem yields_of_inside {g : Grammar R α} {P : α → Cursor → Prop}
    (h : ∀ n, YieldsIn room n g c P) : Yields room g c P :=
  fun scope journal v c' journal' hrun => h _ scope journal v c' journal' rfl hrun

/-- What is found may be said more weakly. -/
theorem YieldsIn.mono {g : Grammar R α} {P Q : α → Cursor → Prop} (h : YieldsIn room n g c P)
    (hPQ : ∀ v c', P v c' → Q v c') : YieldsIn room n g c Q :=
  fun scope journal v c' journal' hn hrun => hPQ v c' (h scope journal v c' journal' hn hrun)

theorem YieldsIn.and {g : Grammar R α} {P Q : α → Cursor → Prop} (h : YieldsIn room n g c P)
    (h' : YieldsIn room n g c Q) : YieldsIn room n g c fun v c' => P v c' ∧ Q v c' :=
  fun scope journal v c' journal' hn hrun =>
    ⟨h scope journal v c' journal' hn hrun, h' scope journal v c' journal' hn hrun⟩

/-- What is found may be said more weakly. -/
theorem Yields.mono {g : Grammar R α} {P Q : α → Cursor → Prop} (h : Yields room g c P)
    (hPQ : ∀ v c', P v c' → Q v c') : Yields room g c Q :=
  fun scope journal v c' journal' hrun => hPQ v c' (h scope journal v c' journal' hrun)

theorem Yields.and {g : Grammar R α} {P Q : α → Cursor → Prop} (h : Yields room g c P)
    (h' : Yields room g c Q) : Yields room g c fun v c' => P v c' ∧ Q v c' :=
  fun scope journal v c' journal' hrun =>
    ⟨h scope journal v c' journal' hrun, h' scope journal v c' journal' hrun⟩

/-- What is found for each of some things, or under a condition, is found for all of them at once. -/
theorem yields_forall {ι : Sort _} {g : Grammar R α} {P : ι → α → Cursor → Prop}
    (h : ∀ i, Yields room g c (P i)) : Yields room g c fun v c' => ∀ i, P i v c' :=
  fun scope journal v c' journal' hrun i => h i scope journal v c' journal' hrun

/-! ### Sequences and readers -/

/-- A value that is given is found where the cursor stands. -/
theorem yields_pure {v : α} {P : α → Cursor → Prop} (h : P v c) :
    Yields room (Pure.pure v : Grammar R α) c P := by
  intro scope journal v' c' journal' hrun
  rw [run_pure] at hrun
  cases hrun
  exact h

/-- What the first grammar finds is where the second one starts. -/
theorem YieldsIn.bind {g : Grammar R α} {f : α → Grammar R β} {P : α → Cursor → Prop}
    {Q : β → Cursor → Prop} (h : YieldsIn room n g c P)
    (hf : ∀ v c', P v c' → YieldsIn room n (f v) c' Q) : YieldsIn room n (g >>= f) c Q := by
  intro scope journal w c'' journal'' hn hrun
  rw [run_bind, Parser.bind] at hrun
  cases hg : run room g scope c journal with
  | finished v c' journal' =>
    rw [hg] at hrun
    exact hf v c' (h scope journal v c' journal' hn hg) scope journal' w c'' journal'' hn hrun
  | failed failure journal' =>
    rw [hg] at hrun
    exact absurd hrun (by simp)

/-- What the first grammar finds is where the second one starts. -/
theorem Yields.bind {g : Grammar R α} {f : α → Grammar R β} {P : α → Cursor → Prop}
    {Q : β → Cursor → Prop} (h : Yields room g c P) (hf : ∀ v c', P v c' → Yields room (f v) c' Q) :
    Yields room (g >>= f) c Q :=
  yields_of_inside fun n => (h.inside n).bind fun v c' hv => (hf v c' hv).inside n

/-- A reader finds what it takes, behind what it takes. -/
theorem yields_read {reader : Reader α} {P : α → Cursor → Prop}
    (h : ∀ v n, reader c.ahead = .took v n → P v (c.advanceBy n)) :
    Yields room (read reader : Grammar R α) c P := by
  intro scope journal v c' journal' hrun
  rw [run_read, Parser.read, Cursor.read] at hrun
  cases hread : reader c.ahead with
  | took v n =>
    rw [hread] at hrun
    cases hrun
    exact h v n hread
  | fault complaint =>
    rw [hread] at hrun
    exact absurd hrun (by simp)

/-- A look finds what it sees, and the cursor stays. -/
theorem yields_look {f : Text → α} {P : α → Cursor → Prop} (h : P (f c.ahead) c) :
    Yields room (look f : Grammar R α) c P := by
  refine yields_read fun v n hread => ?_
  cases hread
  exact h

/-- Looking ahead leaves the cursor where it is. -/
theorem yieldsIn_look_bind {f : Text → α} {g : α → Grammar R β} {P : β → Cursor → Prop}
    (h : YieldsIn room n (g (f c.ahead)) c P) : YieldsIn room n (look f >>= g) c P := by
  refine YieldsIn.bind (P := fun v c' => v = f c.ahead ∧ c' = c)
    ((yields_look ⟨rfl, rfl⟩).inside n) ?_
  rintro _ _ ⟨rfl, rfl⟩
  exact h

theorem yields_look_bind {f : Text → α} {g : α → Grammar R β} {P : β → Cursor → Prop}
    (h : Yields room (g (f c.ahead)) c P) : Yields room (look f >>= g) c P :=
  yields_of_inside fun n => yieldsIn_look_bind (h.inside n)

/-- A grammar that always fails finds whatever one likes. -/
theorem yields_expected {what : Text} {P : α → Cursor → Prop} :
    Yields room (expected what : Grammar R α) c P :=
  yields_read fun v n hread => absurd hread (by simp [Reader.expected])

/-- A word that is expected is ahead. -/
theorem yields_expectKeyword {word : Text} : Yields room (expectKeyword word : Grammar R Unit) c
    fun _ _ => Text.startsWord word c.ahead = true := by
  refine yields_read fun _ n hread => ?_
  unfold Reader.expectKeyword at hread
  split at hread
  · assumption
  · cases hread

theorem yields_note {complaint : Text → Complaint} {P : Unit → Cursor → Prop} (h : P () c) :
    Yields room (note complaint : Grammar R Unit) c P := by
  intro scope journal v c' journal' hrun
  rw [run_note, Parser.note] at hrun
  cases hrun
  exact h

/-- The place that is found is that of the cursor. -/
theorem yields_here {P : Location → Cursor → Prop} (h : P c.location c) :
    Yields room (here : Grammar R Location) c P := by
  intro scope journal v c' journal' hrun
  rw [run_here, Parser.here] at hrun
  cases hrun
  exact h

/-- Where the cursor stands is its location. -/
theorem yieldsIn_here_bind {g : Location → Grammar R β} {P : β → Cursor → Prop}
    (h : YieldsIn room n (g c.location) c P) : YieldsIn room n (here >>= g) c P := by
  refine YieldsIn.bind (P := fun place c' => place = c.location ∧ c' = c)
    ((yields_here ⟨rfl, rfl⟩).inside n) ?_
  rintro _ _ ⟨rfl, rfl⟩
  exact h

theorem yields_here_bind {g : Location → Grammar R β} {P : β → Cursor → Prop}
    (h : Yields room (g c.location) c P) : Yields room (here >>= g) c P :=
  yields_of_inside fun n => yieldsIn_here_bind (h.inside n)

theorem yields_nesting {P : Nat → Cursor → Prop} (h : ∀ n, P n c) :
    Yields room (nesting : Grammar R Nat) c P := by
  intro scope journal v c' journal' hrun
  rw [run_nesting, Parser.nesting] at hrun
  cases hrun
  exact h _

/-- A run that is given up finds whatever one likes. -/
theorem yields_abort {defect : Defect} {P : α → Cursor → Prop} :
    Yields room (abort defect : Grammar R α) c P := by
  intro scope journal v c' journal' hrun
  rw [run_eq_runWith] at hrun
  exact absurd hrun (by simp [runWith, Parser.abort])

/-! ### Brackets and alternatives -/

/-- Open brackets do not change what is found. -/
theorem Yields.bracketed {g : Grammar R α} {P : α → Cursor → Prop} (h : Yields room g c P) :
    Yields room (bracketed g) c P := by
  intro scope journal v c' journal' hrun
  rw [run_bracketed] at hrun
  exact h _ journal v c' journal' hrun

/-- What is tried is found, or nothing is and the cursor stays. -/
theorem YieldsIn.attempt {g : Grammar R α} {P : Option α → Cursor → Prop}
    (h : YieldsIn room n g c fun v c' => P (some v) c') (hnone : P none c) :
    YieldsIn room n (attempt g) c P := by
  intro scope journal v c' journal' hn hrun
  rw [run_attempt, Parser.attempt] at hrun
  cases hg : run room g scope c journal with
  | finished w c'' journal'' =>
    rw [hg] at hrun
    cases hrun
    exact h _ _ _ _ _ hn hg
  | failed failure journal'' =>
    rw [hg] at hrun
    cases hrec : failure.recoverable? with
    | none => simp only [hrec] at hrun; exact absurd hrun (by simp)
    | some e =>
      simp only [hrec] at hrun
      cases hrun
      exact hnone

theorem Yields.attempt {g : Grammar R α} {P : Option α → Cursor → Prop}
    (h : Yields room g c fun v c' => P (some v) c') (hnone : P none c) :
    Yields room (attempt g) c P :=
  yields_of_inside fun n => (h.inside n).attempt hnone

/-- One of the two is what is found. -/
theorem YieldsIn.orElse {g h : Grammar R α} {P : α → Cursor → Prop} (hg : YieldsIn room n g c P)
    (hh : YieldsIn room n h c P) : YieldsIn room n (orElse g h) c P := by
  intro scope journal v c' journal' hn hrun
  rw [run_orElse, Parser.orElse] at hrun
  cases hfirst : run room g scope c journal with
  | finished w c'' journal'' =>
    rw [hfirst] at hrun
    cases hrun
    exact hg _ _ _ _ _ hn hfirst
  | failed failure journal'' =>
    rw [hfirst] at hrun
    cases hrec : failure.recoverable? with
    | none => simp only [hrec] at hrun; exact absurd hrun (by simp)
    | some e =>
      -- the second one starts where the first one did, and its journal goes on from there
      cases hsecond : run room h scope c journal'' with
      | finished w c'' journal''' =>
        simp only [hrec, hsecond] at hrun
        cases hrun
        exact hh _ _ _ _ _ hn hsecond
      | failed failure' journal''' =>
        cases hrec' : failure'.recoverable? <;>
          exact absurd hrun (by simp [hrec, hsecond, hrec'])

theorem Yields.orElse {g h : Grammar R α} {P : α → Cursor → Prop} (hg : Yields room g c P)
    (hh : Yields room h c P) : Yields room (orElse g h) c P :=
  yields_of_inside fun n => (hg.inside n).orElse (hh.inside n)

theorem yieldsIn_choice {alternatives : List (Grammar R α)} {P : α → Cursor → Prop}
    (h : ∀ g ∈ alternatives, YieldsIn room n g c P) : YieldsIn room n (choice alternatives) c P := by
  induction alternatives with
  | nil => exact yields_abort.inside n
  | cons g rest ih =>
    have hg := h g List.mem_cons_self
    have hrest := ih fun g' hg' => h g' (List.mem_cons_of_mem g hg')
    -- a single alternative is tried as itself
    cases rest with
    | nil => exact hg
    | cons => exact hg.orElse hrest

/-- One of the alternatives is what is found. -/
theorem yields_choice {alternatives : List (Grammar R α)} {P : α → Cursor → Prop}
    (h : ∀ g ∈ alternatives, Yields room g c P) : Yields room (choice alternatives) c P :=
  yields_of_inside fun n => yieldsIn_choice fun g hg => (h g hg).inside n

/-- What is to be forgotten leaves the cursor where it was. -/
theorem YieldsIn.rewindIf {forget : α → Bool} {g : Grammar R α} {P : α → Cursor → Prop}
    (h : YieldsIn room n g c fun v c' => P v (if forget v then c else c')) :
    YieldsIn room n (rewindIf forget g) c P := by
  intro scope journal v c' journal' hn hrun
  rw [run_rewindIf, Parser.rewindIf] at hrun
  cases hg : run room g scope c journal with
  | finished w c'' journal'' =>
    rw [hg] at hrun
    cases hrun
    exact h _ _ _ _ _ hn hg
  | failed failure journal'' =>
    rw [hg] at hrun
    exact absurd hrun (by simp)

theorem Yields.rewindIf {forget : α → Bool} {g : Grammar R α} {P : α → Cursor → Prop}
    (h : Yields room g c fun v c' => P v (if forget v then c else c')) :
    Yields room (rewindIf forget g) c P :=
  yields_of_inside fun n => (h.inside n).rewindIf

/-- What is found is kept, and nothing is taken where nothing is found. -/
theorem YieldsIn.optional {g : Grammar R (Option α)} {P : Option α → Cursor → Prop}
    (h : YieldsIn room n g c fun v c' => v ≠ none → P v c') (hnone : P none c) :
    YieldsIn room n (optional g) c P := by
  refine YieldsIn.rewindIf (h.mono fun v c' hv => ?_)
  cases v with
  | none => exact hnone
  | some w => exact hv (by simp)

theorem Yields.optional {g : Grammar R (Option α)} {P : Option α → Cursor → Prop}
    (h : Yields room g c fun v c' => v ≠ none → P v c') (hnone : P none c) :
    Yields room (optional g) c P :=
  yields_of_inside fun n => (h.inside n).optional hnone

/-- To name a culprit does not change what is found. -/
theorem Yields.blame {g : Grammar R α} {P : α → Cursor → Prop} (h : Yields room g c P) :
    Yields room (blame g) c P := by
  intro scope journal v c' journal' hrun
  rw [run_eq_runWith] at hrun
  simp only [runWith, Parser.blame, ← run_eq_runWith] at hrun
  split at hrun
  · exact h scope journal v c' journal' hrun
  · split at hrun
    · exact absurd hrun (by simp)
    · exact h scope journal v c' journal' hrun

/-! ### Loops -/

/--
What holds of a state and a cursor before each turn, and what the last turn leaves. A run that allows
no further turn ends in the state before it.
-/
theorem YieldsIn.loop {turn : σ → Grammar R (Next σ)} {x : σ} {I P : σ → Cursor → Prop}
    (hx : I x c) (hend : ∀ y c', I y c' → P y c')
    (h : ∀ y c', I y c' → YieldsIn room n (turn y) c' fun next c'' =>
      match next with
      | .again z => I z c''
      | .done z => P z c'') :
    YieldsIn room n (iterate turn x) c P := by
  intro scope journal v c' journal' hn hrun
  rw [run_iterate, Parser.iterate] at hrun
  -- the turns are counted from the start of the loop, so the induction is on any number of them
  generalize c.ahead.length + 1 = turns at hrun
  induction turns generalizing x c journal with
  | zero =>
    cases hrun
    exact hend _ _ hx
  | succ turns ih =>
    simp only [Parser.turns, Parser.bind] at hrun
    cases hturn : run room (turn x) scope c journal with
    | finished next c'' journal'' =>
      rw [hturn] at hrun
      have hnext := h x c hx scope journal next c'' journal'' hn hturn
      cases next with
      | again y => exact ih hnext _ hrun
      | done y =>
        cases hrun
        exact hnext
    | failed failure journal'' =>
      rw [hturn] at hrun
      exact absurd hrun (by simp)

/-- The loop rule for all runs. -/
theorem Yields.loop {turn : σ → Grammar R (Next σ)} {x : σ} {I P : σ → Cursor → Prop}
    (hx : I x c) (hend : ∀ y c', I y c' → P y c')
    (h : ∀ y c', I y c' → Yields room (turn y) c' fun next c'' =>
      match next with
      | .again z => I z c''
      | .done z => P z c'') :
    Yields room (iterate turn x) c P :=
  yields_of_inside fun n => YieldsIn.loop hx hend fun y c' hy => (h y c' hy).inside n

/-- What every turn preserves holds at the end of the loop. -/
theorem Yields.iterate {turn : σ → Grammar R (Next σ)} {x : σ} {I : σ → Cursor → Prop}
    (hx : I x c) (h : ∀ y c', I y c' → Yields room (turn y) c' fun next c'' => I next.state c'') :
    Yields room (iterate turn x) c I := by
  refine Yields.loop hx (fun _ _ hy => hy) fun y c' hy => (h y c' hy).mono fun next c'' hnext => ?_
  cases next <;> exact hnext

/-! ### Rules -/

/-- What the body of a rule finds, with the room that is left for it, the rule finds. -/
theorem yieldsIn_call {rule : R α} {P : α → Cursor → Prop}
    (h : ∀ room', room = room' + 1 → YieldsIn room' n (RuleSet.body rule) c P) :
    YieldsIn room n (call rule) c P := by
  intro scope journal v c' journal' hn hrun
  -- without room the call fails, and nothing is to be shown
  cases room with
  | zero => exact absurd hrun (by simp [run, runWith, Parser.tooDeep])
  | succ room =>
    rw [run_call] at hrun
    exact h room rfl { scope with frames := ⟨RuleSet.label rule, c.location⟩ :: scope.frames } journal v
      c' journal' hn hrun

/-- What the body finds the rule finds. -/
theorem yields_call {rule : R α} {P : α → Cursor → Prop}
    (h : ∀ room, Yields room (RuleSet.body rule) c P) : Yields room (call rule) c P :=
  yields_of_inside fun n => yieldsIn_call fun room _ => (h room).inside n

/--
What the bodies of rules find when the rules that they call find what is said of them, is what all
rules find.
-/
theorem yields_call_of_bodies {S : ∀ {β : Type}, R β → Cursor → β → Cursor → Prop}
    (h : ∀ room, (∀ {β : Type} (rule : R β) c, Yields room (call rule) c (S rule c)) →
      ∀ {β : Type} (rule : R β) c, Yields room (RuleSet.body rule) c (S rule c))
    (room : Nat) (rule : R α) (c : Cursor) : Yields room (call rule) c (S rule c) := by
  -- a body has one room less than the call, and its own calls find what is said of them
  induction room generalizing α c with
  | zero =>
    intro scope journal v c' journal' hrun
    exact absurd hrun (by simp [run, runWith, Parser.tooDeep])
  | succ room ih =>
    intro scope journal v c' journal' hrun
    rw [run_call] at hrun
    exact h room (fun rule c => ih rule c) rule c _ journal v c' journal' hrun

/-! ### Where runs end -/

/-- A step that is watched finds what it finds. -/
theorem Yields.watch {step : Text} {g : Grammar R Finding} {P : Finding → Cursor → Prop}
    (h : Yields room g c P) : Yields room (watch step g) c P := by
  intro scope journal v c' journal' hrun
  rw [run_eq_runWith] at hrun
  simp only [runWith, Parser.watch, ← run_eq_runWith] at hrun
  cases hg : run room g scope c journal with
  | finished w c'' journal'' =>
    rw [hg] at hrun
    cases hrun
    exact h _ _ _ _ _ hg
  | failed failure journal'' =>
    rw [hg] at hrun
    exact absurd hrun (by simp)

/-- A run only goes forward, if the rules do that it enters. -/
theorem yields_reaches_of_entry
    (h : ∀ (β : Type) (label : Text) (g : Grammar R β) scope c journal v c' journal',
      entry room β label g scope c journal = .finished v c' journal' → c.Reaches c')
    (g : Grammar R α) (c : Cursor) : Yields room g c fun _ c' => c.Reaches c' := by
  -- one case for each constructor; only entering a rule is left to what is assumed
  induction g generalizing c with
  | pure v => exact yields_pure (.refl c)
  | bind g f ihg ihf =>
    exact (ihg c).bind fun v c' hc => (ihf v c').mono fun _ _ hc' => hc.trans hc'
  | read reader => exact yields_read fun _ n _ => c.reaches_advanceBy n
  | note => exact yields_note (.refl c)
  | here => exact yields_here (.refl c)
  | nesting => exact yields_nesting fun _ => .refl c
  | abort => exact yields_abort
  | call rule =>
    intro scope journal v c' journal' hrun
    rw [run_eq_runWith] at hrun
    exact h _ _ _ scope c journal v c' journal' hrun
  | within label g =>
    intro scope journal v c' journal' hrun
    rw [run_eq_runWith] at hrun
    exact h _ label g scope c journal v c' journal' hrun
  | bracketed g ih => exact (ih c).bracketed
  | attempt g ih => exact (ih c).attempt (.refl c)
  | orElse g h ih ih' => exact (ih c).orElse (ih' c)
  | rewindIf forget g ih =>
    refine Yields.rewindIf ((ih c).mono fun v c' hc => ?_)
    split
    · exact .refl c
    · exact hc
  | iterate turn x ih =>
    exact Yields.iterate (I := fun _ c' => c.Reaches c') (.refl c) fun y c' hc =>
      (ih y c').mono fun _ _ hc' => hc.trans hc'
  | blame g ih => exact (ih c).blame
  | watch step g ih => exact (ih c).watch

/-- A run only goes forward, and never leaves the text. -/
theorem yields_reaches (room : Nat) (g : Grammar R α) (c : Cursor) :
    Yields room g c fun _ c' => c.Reaches c' := by
  induction room generalizing α g c with
  | zero =>
    exact yields_reaches_of_entry (fun β label g scope c journal v c' journal' hrun =>
      absurd hrun (by simp [entry, Parser.tooDeep])) g c
  | succ room ih =>
    refine yields_reaches_of_entry (fun β label g scope c journal v c' journal' hrun => ?_) g c
    -- a rule that is entered is a run with less room, which only has one more frame
    have hwithin : run room g { scope with frames := ⟨label, c.location⟩ :: scope.frames } c journal
        = .finished v c' journal' := hrun
    exact ih g c _ journal v c' journal' hwithin

/-! ### What is found, wherever it is -/

/-- Every run that finishes finds a value with `P`. -/
def Finds (room : Nat) (g : Grammar R α) (P : α → Prop) : Prop :=
  ∀ c, Yields room g c fun v _ => P v

theorem finds_any (g : Grammar R α) : Finds room g fun _ => True :=
  fun _ _ _ _ _ _ _ => trivial

/-- A value that is given is found. -/
theorem finds_pure {v : α} {P : α → Prop} (h : P v) :
    Finds room (Pure.pure v : Grammar R α) P :=
  fun _ => yields_pure h

/-- What the first grammar finds the second one starts with. -/
theorem Finds.bind {g : Grammar R α} {f : α → Grammar R β} {P : α → Prop} {Q : β → Prop}
    (h : Finds room g P) (hf : ∀ v, P v → Finds room (f v) Q) : Finds room (g >>= f) Q :=
  fun c => (h c).bind fun v c' hv => hf v hv c'

/-- What the first grammar finds does not matter. -/
theorem Finds.after {g : Grammar R α} {f : α → Grammar R β} {Q : β → Prop}
    (hf : ∀ v, Finds room (f v) Q) : Finds room (g >>= f) Q :=
  (finds_any g).bind fun v _ => hf v

/-- Whatever a reader takes is what it finds. -/
theorem finds_read {reader : Reader α} {P : α → Prop}
    (h : ∀ t v n, reader t = .took v n → P v) : Finds room (read reader : Grammar R α) P :=
  fun c => yields_read fun v n hread => h c.ahead v n hread

theorem finds_expected {what : Text} {P : α → Prop} :
    Finds room (expected what : Grammar R α) P :=
  fun _ => yields_expected

theorem Finds.bracketed {g : Grammar R α} {P : α → Prop} (h : Finds room g P) :
    Finds room (bracketed g) P :=
  fun c => (h c).bracketed

/-- One of the alternatives is what is found. -/
theorem finds_choice {alternatives : List (Grammar R α)} {P : α → Prop}
    (h : ∀ g ∈ alternatives, Finds room g P) : Finds room (choice alternatives) P :=
  fun c => yields_choice fun g hg => h g hg c

/-- What an optional grammar finds, if it finds anything. -/
theorem Finds.optional {g : Grammar R (Option α)} {P : α → Prop}
    (h : Finds room g fun v => ∀ w ∈ v, P w) : Finds room (optional g) fun v => ∀ w ∈ v, P w :=
  fun c => Yields.optional ((h c).mono fun _ _ hv _ => hv) (by simp)

/-- What every turn preserves is found at the end of the loop. -/
theorem Finds.iterate {turn : σ → Grammar R (Next σ)} {x : σ} {I : σ → Prop} (hx : I x)
    (h : ∀ y, I y → Finds room (turn y) fun next => I next.state) :
    Finds room (iterate turn x) I :=
  fun _ => Yields.iterate (I := fun y _ => I y) hx fun y c' hy => h y hy c'

/-- What has to be found is found. -/
theorem finds_require {what : Text} {reader : Reader (Option α)} {P : α → Prop}
    (h : ∀ t v n, reader t = .took (some v) n → P v) :
    Finds room (require what reader : Grammar R α) P := by
  refine Finds.bind (P := fun found => ∀ v ∈ found, P v) (finds_read fun t v n hread w hw => ?_)
    fun found hfound => ?_
  · rw [Option.mem_def.mp hw] at hread
    exact h t w n hread
  · cases found with
    | none => exact finds_expected
    | some v => exact finds_pure (hfound v rfl)

/-! ### Lists -/

section Lists

variable {item : Grammar R α} {P : α → Prop}

/-- A loop collects items in front of those it has, and turns them around at its end. -/
theorem Finds.collect {turn : List α → Grammar R (Next (List α))}
    (h : ∀ items, (∀ v ∈ items, P v) → Finds room (turn items) fun next => ∀ v ∈ next.state, P v) :
    Finds room (Grammar.iterate turn [] >>= fun items => Pure.pure items.reverse)
      fun items => ∀ v ∈ items, P v :=
  Finds.bind (P := fun items => ∀ v ∈ items, P v) (Finds.iterate (by simp) h)
    fun items hitems => finds_pure fun v hv => hitems v (List.mem_reverse.mp hv)

/-- Every item is what an item is, and there is one at least where the loop goes on from one. -/
theorem Finds.commaSeparated (h : Finds room item P) :
    Finds room (commaSeparated item) fun items => ∀ v ∈ items, P v := by
  refine Finds.collect fun items hitems => ?_
  refine h.bind fun found hfound => Finds.after fun _ => Finds.after fun comma => ?_
  -- the item of this turn stands in front, whether a comma follows it or not
  have hmore : ∀ v ∈ found :: items, P v := List.forall_mem_cons.mpr ⟨hfound, hitems⟩
  split
  · exact Finds.after fun _ => finds_pure hmore
  · exact finds_pure hmore

/-- Every item in the parentheses is what an item is; there may be none. -/
theorem Finds.parenthesized (h : Finds room item P) :
    Finds room (parenthesized item) fun items => ∀ v ∈ items, P v := by
  refine Finds.after fun _ => Finds.bracketed (Finds.after fun _ => Finds.after fun closed => ?_)
  split
  · exact finds_pure (by simp)
  · exact h.commaSeparated.bind fun items hitems => Finds.after fun _ => finds_pure hitems

/-- Every item up to the closing bracket is what an item is; there may be none. -/
theorem Finds.itemsUntil {closer : Text} (h : Finds room item P) :
    Finds room (itemsUntil closer item) fun items => ∀ v ∈ items, P v := by
  refine Finds.bracketed (Finds.after fun _ => Finds.collect fun items hitems => ?_)
  refine Finds.after fun closed => ?_
  split
  · exact finds_pure hitems
  · refine h.bind fun found hfound => Finds.after fun _ => Finds.after fun comma => ?_
    have hmore : ∀ v ∈ found :: items, P v := List.forall_mem_cons.mpr ⟨hfound, hitems⟩
    split
    · exact Finds.after fun _ => finds_pure hmore
    · exact Finds.after fun _ => finds_pure hmore

end Lists

end Grammar

end GDScript
