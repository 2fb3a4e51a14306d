import GDScript.Proofs.Position
import GDScript.Proofs.Report.Journal

/-!
# What runs lead to

`Grammar.Leads room g c journal Q E` says of every run of `g` from the cursor `c` with the journal so
far that it finishes with `Q`, or fails with `E`. Unlike `Yields` it speaks of failures, and of the
journal on both sides. Each constructor of `Grammar` has a rule. A failure that an alternative is
tried after passes its journal on, so the alternative is asked about from there.

As long as `E` is the same all through a grammar, the rule for sequences hands it on unchanged.
-/

namespace GDScript

/-- The run finishes with `Q` or fails with `E`. -/
def Outcome.Meets {α : Type} (Q : α → Cursor → Journal → Prop) (E : Failure → Journal → Prop) :
    Outcome α → Prop
  | .finished v c journal => Q v c journal
  | .failed failure journal => E failure journal

instance {α : Type} (Q : α → Cursor → Journal → Prop) (E : Failure → Journal → Prop)
    [∀ v c journal, Decidable (Q v c journal)] [∀ failure journal, Decidable (E failure journal)] :
    ∀ o : Outcome α, Decidable (o.Meets Q E)
  | .finished v c journal => inferInstanceAs (Decidable (Q v c journal))
  | .failed failure journal => inferInstanceAs (Decidable (E failure journal))

theorem Outcome.Meets.mono {α : Type} {Q Q' : α → Cursor → Journal → Prop}
    {E E' : Failure → Journal → Prop} {o : Outcome α} (h : o.Meets Q E)
    (hQ : ∀ v c journal, Q v c journal → Q' v c journal)
    (hE : ∀ failure journal, E failure journal → E' failure journal) : o.Meets Q' E' := by
  cases o with
  | finished v c journal => exact hQ v c journal h
  | failed failure journal => exact hE failure journal h

theorem Outcome.Meets.journal {α : Type} {P : Journal → Prop} {o : Outcome α}
    (h : o.Meets (fun _ _ journal => P journal) fun _ journal => P journal) : P o.journal := by
  cases o with
  | finished v c journal => exact h
  | failed failure journal => exact h

theorem Outcome.Meets.and {α : Type} {Q Q' : α → Cursor → Journal → Prop}
    {E E' : Failure → Journal → Prop} {o : Outcome α} (h : o.Meets Q E) (h' : o.Meets Q' E') :
    o.Meets (fun v c journal => Q v c journal ∧ Q' v c journal)
      fun failure journal => E failure journal ∧ E' failure journal := by
  cases o with
  | finished v c journal => exact ⟨h, h'⟩
  | failed failure journal => exact ⟨h, h'⟩

theorem Failure.exists_of_recoverable? {failure : Failure} {e : ParseError}
    (h : failure.recoverable? = some e) : failure = .parse e ∧ e.recoverable = true := by
  cases failure with
  | parse d =>
    rw [recoverable?] at h
    split at h
    · next hd =>
      obtain rfl := Option.some.inj h
      exact ⟨rfl, hd⟩
    · exact absurd h (by simp)
  | _ => exact absurd h (by simp [recoverable?])

theorem Failure.recoverable?_parse {e : ParseError} (h : e.recoverable = true) :
    (Failure.parse e).recoverable? = some e := by
  rw [recoverable?, if_pos h]

namespace Grammar

variable {R : Type → Type} [RuleSet R] {α β σ : Type} {room : Nat} {c : Cursor} {journal : Journal}
  {E : Failure → Journal → Prop}

/-- Every run from the cursor with the journal finishes with `Q` or fails with `E`. -/
def Leads (room : Nat) (g : Grammar R α) (c : Cursor) (journal : Journal)
    (Q : α → Cursor → Journal → Prop) (E : Failure → Journal → Prop) : Prop :=
  ∀ scope, (run room g scope c journal).Meets Q E

section

variable {g h : Grammar R α} {Q Q' : α → Cursor → Journal → Prop} {E' : Failure → Journal → Prop}

theorem Leads.mono (hg : Leads room g c journal Q E)
    (hQ : ∀ v c' journal', Q v c' journal' → Q' v c' journal')
    (hE : ∀ failure journal', E failure journal' → E' failure journal') :
    Leads room g c journal Q' E' :=
  fun scope => (hg scope).mono hQ hE

theorem Leads.and (hg : Leads room g c journal Q E) (hg' : Leads room g c journal Q' E') :
    Leads room g c journal (fun v c' journal' => Q v c' journal' ∧ Q' v c' journal')
      fun failure journal' => E failure journal' ∧ E' failure journal' :=
  fun scope => (hg scope).and (hg' scope)

/-- What every run finds, this one finds as well. -/
theorem Leads.and_yields {P : α → Cursor → Prop} (hg : Leads room g c journal Q E)
    (hP : Yields room g c P) :
    Leads room g c journal (fun v c' journal' => P v c' ∧ Q v c' journal') E := by
  intro scope
  have hmeets := hg scope
  cases hrun : run room g scope c journal with
  | finished v c' journal' =>
    rw [hrun] at hmeets
    exact ⟨hP scope journal v c' journal' hrun, hmeets⟩
  | failed failure journal' =>
    rw [hrun] at hmeets
    exact hmeets

/-- A run that leads to `P` finds it. -/
theorem yields_of_leads {P : α → Cursor → Prop}
    (hg : ∀ journal, Leads room g c journal (fun v c' _ => P v c') fun _ _ => True) :
    Yields room g c P := by
  intro scope journal v c' journal' hrun
  have hmeets := hg journal scope
  rw [hrun] at hmeets
  exact hmeets

/-- What a run finds, it leads to. -/
theorem leads_of_yields {P : α → Cursor → Prop} (hP : Yields room g c P) :
    Leads room g c journal (fun v c' _ => P v c') fun _ _ => True := by
  intro scope
  cases hrun : run room g scope c journal with
  | finished v c' journal' => exact hP scope journal v c' journal' hrun
  | failed failure journal' => trivial

/-- Where failures do not matter, neither does the run if all that it finishes with is fine. -/
theorem leads_of_forall (h : ∀ v c' journal', Q v c' journal') :
    Leads room g c journal Q fun _ _ => True :=
  (leads_of_yields (P := fun _ _ => True) fun _ _ _ _ _ _ => trivial).mono
    (fun v c' journal' _ => h v c' journal') fun _ _ hE => hE

/-! ### Sequences and readers -/

theorem leads_pure {v : α} (h : Q v c journal) :
    Leads room (Pure.pure v : Grammar R α) c journal Q E := by
  intro scope
  rw [run_pure]
  exact h

theorem Leads.bind {f : α → Grammar R β} {P : β → Cursor → Journal → Prop}
    (hg : Leads room g c journal Q E)
    (hf : ∀ v c' journal', Q v c' journal' → Leads room (f v) c' journal' P E) :
    Leads room (g >>= f) c journal P E := by
  intro scope
  have hmeets := hg scope
  rw [run_bind, Parser.bind]
  cases hrun : run room g scope c journal with
  | finished v c' journal' =>
    rw [hrun] at hmeets
    exact hf v c' journal' hmeets scope
  | failed failure journal' =>
    rw [hrun] at hmeets
    exact hmeets

theorem leads_read {reader : Reader α}
    (htook : ∀ v n, reader c.ahead = .took v n → Q v (c.advanceBy n) journal)
    (hfault : ∀ complaint scope, reader c.ahead = .fault complaint →
      let e := Complaint.error complaint (c.advanceBy complaint.distance).location scope
      E (.parse e) (.raised e :: journal)) :
    Leads room (read reader : Grammar R α) c journal Q E := by
  intro scope
  rw [run_read, Parser.read, Cursor.read]
  cases hread : reader c.ahead with
  | took v n => exact htook v n hread
  | fault complaint => exact hfault complaint scope hread

/-- Looking ahead leaves the cursor where it is. -/
theorem leads_look_bind {f : Text → α} {k : α → Grammar R β} {P : β → Cursor → Journal → Prop}
    (h : Leads room (k (f c.ahead)) c journal P E) : Leads room (look f >>= k) c journal P E := by
  intro scope
  rw [run_bind, Parser.bind, look, run_read]
  exact h scope

/-- What is skipped is taken for sure. -/
theorem leads_skip_bind {length : Text → Nat} {k : Unit → Grammar R β}
    {P : β → Cursor → Journal → Prop}
    (h : Leads room (k ()) (c.advanceBy (length c.ahead)) journal P E) :
    Leads room (read (Reader.skip length) >>= k) c journal P E := by
  intro scope
  rw [run_bind, Parser.bind, run_read]
  exact h scope

theorem leads_note {complaint : Text → Complaint} {Q : Unit → Cursor → Journal → Prop}
    (h : ∀ scope, Q () c
      (.noted ((complaint c.ahead).error (c.advanceBy (complaint c.ahead).distance).location scope)
        :: journal)) :
    Leads room (note complaint : Grammar R Unit) c journal Q E := by
  intro scope
  rw [run_note]
  exact h scope

theorem leads_here {Q : Location → Cursor → Journal → Prop} (h : Q c.location c journal) :
    Leads room (here : Grammar R Location) c journal Q E := by
  intro scope
  rw [run_here]
  exact h

theorem leads_nesting {Q : Nat → Cursor → Journal → Prop} (h : ∀ n, Q n c journal) :
    Leads room (nesting : Grammar R Nat) c journal Q E := by
  intro scope
  rw [run_nesting]
  exact h _

/-! ### Brackets and alternatives -/

theorem Leads.bracketed (hg : Leads room g c journal Q E) :
    Leads room (bracketed g) c journal Q E := by
  intro scope
  rw [run_bracketed]
  exact hg _

theorem Leads.attempt {Q : Option α → Cursor → Journal → Prop}
    (hg : Leads room g c journal (fun v => Q (some v)) E')
    (hgivenUp : ∀ e journal', e.recoverable = true → E' (.parse e) journal' →
      Q none c (.abandoned e :: journal'))
    (hfailed : ∀ failure journal', failure.recoverable? = none → E' failure journal' →
      E failure journal') :
    Leads room (attempt g) c journal Q E := by
  intro scope
  have hmeets := hg scope
  rw [run_attempt, Parser.attempt]
  cases hrun : run room g scope c journal with
  | finished v c' journal' =>
    rw [hrun] at hmeets
    exact hmeets
  | failed failure journal' =>
    rw [hrun] at hmeets
    -- a recoverable failure is given up, any other one is passed on
    cases hrec : failure.recoverable? with
    | none =>
      simp only [hrec]
      exact hfailed failure journal' hrec hmeets
    | some e =>
      obtain ⟨rfl, he⟩ := Failure.exists_of_recoverable? hrec
      simp only [hrec]
      exact hgivenUp e journal' he hmeets

/--
The second alternative goes on with the journal that the first one leaves. When it fails as well, the
failure of the first one may be the one that is raised.
-/
theorem Leads.orElse (hg : Leads room g c journal Q E)
    (hh : ∀ first journal', first.recoverable = true → E (.parse first) journal' →
      Leads room h c journal' Q fun failure journal'' =>
        E failure journal'' ∧ (failure.recoverable? ≠ none → E (.parse first) journal'')) :
    Leads room (orElse g h) c journal Q E := by
  intro scope
  have hfirst := hg scope
  rw [run_orElse, Parser.orElse]
  cases hrun : run room g scope c journal with
  | finished v c' journal' =>
    rw [hrun] at hfirst
    exact hfirst
  | failed failure journal' =>
    rw [hrun] at hfirst
    cases hrec : failure.recoverable? with
    | none => simpa only [hrec] using hfirst
    | some first =>
      obtain ⟨rfl, he⟩ := Failure.exists_of_recoverable? hrec
      have hsecond := hh first journal' he hfirst scope
      cases hrun' : run room h scope c journal' with
      | finished v c' journal'' =>
        rw [hrun'] at hsecond
        simp only [hrec, hrun']
        exact hsecond
      | failed failure' journal'' =>
        rw [hrun'] at hsecond
        cases hrec' : failure'.recoverable? with
        | none =>
          simp only [hrec, hrun', hrec']
          exact hsecond.1
        | some second =>
          -- the one that got further is raised, which is the first one if they got equally far
          obtain ⟨rfl, -⟩ := Failure.exists_of_recoverable? hrec'
          simp only [hrec, hrun', hrec', Parser.further]
          split
          · exact hsecond.1
          · exact hsecond.2 (by rw [hrec']; simp)

theorem Leads.rewindIf {forget : α → Bool}
    (hg : Leads room g c journal (fun v c' => Q v (if forget v then c else c')) E) :
    Leads room (rewindIf forget g) c journal Q E := by
  intro scope
  have hmeets := hg scope
  rw [run_rewindIf, Parser.rewindIf]
  cases hrun : run room g scope c journal with
  | finished v c' journal' =>
    rw [hrun] at hmeets
    exact hmeets
  | failed failure journal' =>
    rw [hrun] at hmeets
    exact hmeets

end

/-- What is found is kept, and the cursor goes back to where it was when nothing is found. -/
theorem Leads.optional {g : Grammar R (Option α)} {Q : Option α → Cursor → Journal → Prop}
    (hg : Leads room g c journal (fun v c' => Q v (if v.isNone then c else c')) E) :
    Leads room (optional g) c journal Q E :=
  hg.rewindIf

/-! ### Loops -/

/--
What holds of a state, a cursor and a journal while so many further turns are allowed, and what the
last turn leaves. A run that allows no further turn ends in the state before it.
-/
theorem Leads.turns {turn : σ → Grammar R (Next σ)} {x : σ}
    {I : Nat → σ → Cursor → Journal → Prop} {Q : σ → Cursor → Journal → Prop}
    (hx : I (c.ahead.length + 1) x c journal)
    (hend : ∀ y c' journal', I 0 y c' journal' → Q y c' journal')
    (h : ∀ n y c' journal', I (n + 1) y c' journal' → Leads room (turn y) c' journal' (fun next =>
      match next with
      | .again z => I n z
      | .done z => Q z) E) :
    Leads room (iterate turn x) c journal Q E := by
  intro scope
  rw [run_iterate, Parser.iterate]
  -- the number of turns is fixed before the first one, so the induction is on any such number
  generalize c.ahead.length + 1 = turns at hx ⊢
  induction turns generalizing x c journal with
  | zero => exact hend x c journal hx
  | succ turns ih =>
    have hturn := h turns x c journal hx scope
    rw [Parser.turns, Parser.bind]
    cases hrun : run room (turn x) scope c journal with
    | finished next c' journal' =>
      rw [hrun] at hturn
      cases next with
      | again y => exact ih hturn
      | done y => exact hturn
    | failed failure journal' =>
      rw [hrun] at hturn
      exact hturn

/-- What holds before every turn, however many are allowed. -/
theorem Leads.loop {turn : σ → Grammar R (Next σ)} {x : σ} {I Q : σ → Cursor → Journal → Prop}
    (hx : I x c journal) (hend : ∀ y c' journal', I y c' journal' → Q y c' journal')
    (h : ∀ y c' journal', I y c' journal' → Leads room (turn y) c' journal' (fun next =>
      match next with
      | .again z => I z
      | .done z => Q z) E) :
    Leads room (iterate turn x) c journal Q E :=
  Leads.turns (I := fun _ => I) hx hend fun _ => h

/-- Where every turn that asks for another one takes a unit, the turns that are allowed suffice. -/
theorem Leads.loop_of_progress {turn : σ → Grammar R (Next σ)} {x : σ}
    {I Q : σ → Cursor → Journal → Prop} (hx : I x c journal)
    (h : ∀ y c' journal', I y c' journal' → Leads room (turn y) c' journal' (fun next c'' journal'' =>
      match next with
      | .again z => I z c'' journal'' ∧ c''.ahead.length < c'.ahead.length
      | .done z => Q z c'' journal'') E) :
    Leads room (iterate turn x) c journal Q E := by
  -- a turn that takes a unit uses up one of the turns, of which there is one more than units
  refine Leads.turns (I := fun n y c' journal' => I y c' journal' ∧ c'.ahead.length < n)
    ⟨hx, Nat.lt_succ_self _⟩ (fun _ _ _ hy => absurd hy.2 (Nat.not_lt_zero _))
    fun n y c' journal' hy => ?_
  refine (h y c' journal' hy.1).mono (fun next c'' journal'' hnext => ?_) fun _ _ hE => hE
  cases next with
  | again z => exact ⟨hnext.1, by omega⟩
  | done z => exact hnext

/-- What the last turn finds is what a loop finds whose turns all take a unit. -/
theorem Yields.loop_of_progress {turn : σ → Grammar R (Next σ)} {x : σ} {P : σ → Cursor → Prop}
    (h : ∀ y c', Yields room (turn y) c' fun next c'' =>
      match next with
      | .again _ => c''.ahead.length < c'.ahead.length
      | .done z => P z c'') :
    Yields room (Grammar.iterate turn x) c P := by
  refine yields_of_leads fun journal => Leads.loop_of_progress (I := fun _ _ _ => True) trivial
    fun y c' journal' _ => (leads_of_yields (h y c')).mono (fun next c'' _ hnext => ?_)
      fun _ _ hE => hE
  cases next with
  | again z => exact ⟨trivial, hnext⟩
  | done z => exact hnext

/-! ### The end of a run -/

theorem leads_abort {defect : Defect} {Q : α → Cursor → Journal → Prop}
    (h : E defect.failure journal) : Leads room (abort defect : Grammar R α) c journal Q E := by
  intro scope
  rw [run_eq_runWith]
  exact h

/-- What got furthest is raised again, if the cursor has not passed it. -/
theorem Leads.blame {g : Grammar R α} {Q : α → Cursor → Journal → Prop}
    (hblamed : ∀ e, journal.furthest = some e → c.location.offset ≤ e.location.offset →
      E (.parse e) journal)
    (hg : ¬journal.Reaches c.location.offset → Leads room g c journal Q E) :
    Leads room (blame g) c journal Q E := by
  intro scope
  rw [run_eq_runWith]
  simp only [runWith, Parser.blame, ← run_eq_runWith]
  -- without an error as far as the cursor the other grammar is run
  cases hbest : journal.furthest with
  | none =>
    refine hg ?_ scope
    rintro ⟨b, hb, -⟩
    exact absurd (hbest.symm.trans hb) (by simp)
  | some e =>
    dsimp only
    split
    · next hle => exact hblamed e hbest hle
    · next hlt =>
      refine hg ?_ scope
      rintro ⟨b, hb, hle⟩
      rw [← Option.some.inj (hbest.symm.trans hb)] at hle
      exact hlt hle

/-- A watched step only adds an event that is no failure. -/
theorem Leads.watch {step : Text} {g : Grammar R Finding} {Q : Finding → Cursor → Journal → Prop}
    (hg : Leads room g c journal (fun v c' journal' => ∀ w, Q v c' (.watched w :: journal'))
      fun failure journal' => ∀ w, E failure (.watched w :: journal')) :
    Leads room (watch step g) c journal Q E := by
  intro scope
  have hmeets := hg scope
  rw [run_eq_runWith]
  simp only [runWith, Parser.watch, ← run_eq_runWith]
  cases hrun : run room g scope c journal with
  | finished v c' journal' =>
    rw [hrun] at hmeets
    exact hmeets _
  | failed failure journal' =>
    rw [hrun] at hmeets
    exact hmeets _

/-! ### Rules -/

/-- A grammar within a label leads to what it leads to alone, with whatever room. -/
theorem leads_within {label : Text} {g : Grammar R α} {Q : α → Cursor → Journal → Prop}
    (hdeep : ∀ scope : Scope, E (.parse (scope.tooDeep c.location))
      (.exceeded (scope.tooDeep c.location) :: journal))
    (h : ∀ room, Leads room g c journal Q E) : Leads room (within label g) c journal Q E := by
  intro scope
  cases room with
  | zero => exact hdeep scope
  | succ room => exact h room _

/-- A rule is its body within its label. -/
theorem leads_call {rule : R α} {Q : α → Cursor → Journal → Prop}
    (hdeep : ∀ scope : Scope, E (.parse (scope.tooDeep c.location))
      (.exceeded (scope.tooDeep c.location) :: journal))
    (h : ∀ room, Leads room (RuleSet.body rule) c journal Q E) :
    Leads room (call rule) c journal Q E := by
  intro scope
  have hwithin : Leads room (within (RuleSet.label rule) (RuleSet.body rule)) c journal Q E :=
    leads_within hdeep h
  -- a call runs as its body does within its label, with room and without
  cases room <;> exact hwithin scope

/--
What the bodies of rules lead to when the rules that they call lead to what is said of them, is what
all rules lead to, if it is also what a lack of room leads to.
-/
theorem leads_call_of_bodies {S : ∀ {β : Type}, R β → Cursor → Journal → Prop}
    {T : ∀ {β : Type}, R β → Cursor → Journal → β → Cursor → Journal → Prop}
    (hdeep : ∀ {β : Type} (rule : R β) (scope : Scope) c journal, S rule c journal →
      E (.parse (scope.tooDeep c.location)) (.exceeded (scope.tooDeep c.location) :: journal))
    (h : ∀ room, (∀ {β : Type} (rule : R β) c journal, S rule c journal →
        Leads room (call rule) c journal (T rule c journal) E) →
      ∀ {β : Type} (rule : R β) c journal, S rule c journal →
        Leads room (RuleSet.body rule) c journal (T rule c journal) E)
    (room : Nat) (rule : R α) (c : Cursor) (journal : Journal) (hS : S rule c journal) :
    Leads room (call rule) c journal (T rule c journal) E := by
  induction room generalizing α c journal with
  | zero => exact fun scope => hdeep rule scope c journal hS
  | succ room ih =>
    -- the rules that the body calls have one room less
    intro scope
    rw [run_call]
    exact h room (fun rule c journal hS => ih rule c journal hS) rule c journal hS _

end Grammar

end GDScript
