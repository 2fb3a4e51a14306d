import GDScript.Grammar.Basic

/-!
# Runs that take a text

`Grammar.Takes room n g s rest P` says that `g`, run with room for `room` rules and inside `n`
brackets, takes `s` wherever `s ++ rest` is ahead, and finds a value with `P`; `Grammar.Refuses`
says that it fails there in a way that an alternative recovers from. Each constructor of `Grammar`
has a lemma for what it takes, and what a grammar takes is shown by composing what its parts take.

A loop is described from its state on: `Grammar.Loops` says what the turns from a state with `P`
on take, and a turn that asks for another one is put in front by `Loops.again`. The number of turns
that a run allows never matters, since a turn that asks for another one takes a unit.
-/

namespace GDScript.Grammar

variable {R : Type → Type} [RuleSet R] {α β σ : Type} {room n : Nat}

/-! ### Running a composed grammar -/

/-- The way rules are entered when there is so much room. -/
def entry : Nat → Entry R
  | 0 => fun _ _ _ => Parser.tooDeep
  | room + 1 => fun _ label body => Parser.within label (run room body)

/-- With and without room, a run is the same but for how it enters rules. -/
theorem run_eq_runWith (room : Nat) (g : Grammar R α) : run room g = runWith (entry room) g := by
  cases room <;> rfl

theorem run_pure (room : Nat) (v : α) : run room (Pure.pure v : Grammar R α) = Parser.pure v := by
  rw [run_eq_runWith]; rfl

theorem run_bind (room : Nat) (g : Grammar R α) (f : α → Grammar R β) :
    run room (g >>= f) = Parser.bind (run room g) fun v => run room (f v) := by
  simp only [run_eq_runWith]; rfl

theorem run_read (room : Nat) (reader : Reader α) :
    run room (read reader : Grammar R α) = Parser.read reader := by
  rw [run_eq_runWith]; rfl

theorem run_note (room : Nat) (complaint : Text → Complaint) :
    run room (note complaint : Grammar R Unit) = Parser.note complaint := by
  rw [run_eq_runWith]; rfl

theorem run_here (room : Nat) : run room (here : Grammar R Location) = Parser.here := by
  rw [run_eq_runWith]; rfl

theorem run_nesting (room : Nat) : run room (nesting : Grammar R Nat) = Parser.nesting := by
  rw [run_eq_runWith]; rfl

/-- A rule is its body, with one room less and its name on the frames. -/
theorem run_call (room : Nat) (rule : R α) :
    run (room + 1) (call rule) =
      Parser.within (RuleSet.label rule) (run room (RuleSet.body rule)) := rfl

theorem run_bracketed (room : Nat) (g : Grammar R α) :
    run room (bracketed g) = Parser.bracketed (run room g) := by
  simp only [run_eq_runWith]; rfl

theorem run_attempt (room : Nat) (g : Grammar R α) :
    run room (attempt g) = Parser.attempt (run room g) := by
  simp only [run_eq_runWith]; rfl

theorem run_orElse (room : Nat) (g h : Grammar R α) :
    run room (orElse g h) = Parser.orElse (run room g) (run room h) := by
  simp only [run_eq_runWith]; rfl

theorem run_rewindIf (room : Nat) (forget : α → Bool) (g : Grammar R α) :
    run room (rewindIf forget g) = Parser.rewindIf forget (run room g) := by
  simp only [run_eq_runWith]; rfl

theorem run_iterate (room : Nat) (turn : σ → Grammar R (Next σ)) (state : σ) :
    run room (iterate turn state) = Parser.iterate (fun x => run room (turn x)) state := by
  simp only [run_eq_runWith]; rfl

section

variable {scope : Scope} {c : Cursor} {journal : Journal}

/-- A sequence goes on with its second grammar from where the first one ends. -/
theorem run_bind_of_finished {g : Grammar R α} {f : α → Grammar R β} {v : α} {c' : Cursor}
    {journal' : Journal} (h : run room g scope c journal = .finished v c' journal') :
    run room (g >>= f) scope c journal = run room (f v) scope c' journal' := by
  rw [run_bind, Parser.bind, h]

/-- A sequence fails as its first grammar does. -/
theorem run_bind_of_failed {g : Grammar R α} {f : α → Grammar R β} {failure : Failure}
    {journal' : Journal} (h : run room g scope c journal = .failed failure journal') :
    run room (g >>= f) scope c journal = .failed failure journal' := by
  rw [run_bind, Parser.bind, h]

/-- What a reader takes is behind the cursor. -/
theorem run_read_of_took {reader : Reader α} {v : α} {length : Nat}
    (h : reader c.ahead = .took v length) :
    run room (read reader : Grammar R α) scope c journal
      = .finished v (c.advanceBy length) journal := by
  rw [run_read, Parser.read, Cursor.read, h]

/-- A complaint is raised at its place, and noted in the journal. -/
theorem run_read_of_fault {reader : Reader α} {complaint : Complaint}
    (h : reader c.ahead = .fault complaint) :
    run room (read reader : Grammar R α) scope c journal =
      let e := complaint.error (c.advanceBy complaint.distance).location scope
      .failed (.parse e) (.raised e :: journal) := by
  rw [run_read, Parser.read, Cursor.read, h]

end

/-! ### Taking and refusing -/

/--
Wherever `s ++ rest` is ahead, inside `n` brackets, the grammar takes `s` and finds a value with
`P`.
-/
def Takes (room n : Nat) (g : Grammar R α) (s rest : Text) (P : α → Prop) : Prop :=
  ∀ (scope : Scope) (cursor : Cursor) (journal : Journal),
    scope.nesting = n → cursor.ahead = s ++ rest →
      ∃ v journal', run room g scope cursor journal
        = .finished v (cursor.advanceBy s.length) journal' ∧ P v

/-- Wherever the text is ahead, inside `n` brackets, the grammar fails recoverably. -/
def Refuses (room n : Nat) (g : Grammar R α) (t : Text) : Prop :=
  ∀ (scope : Scope) (cursor : Cursor) (journal : Journal),
    scope.nesting = n → cursor.ahead = t →
      ∃ e journal', run room g scope cursor journal = .failed (.parse e) journal'
        ∧ e.recoverable = true

/-- What is ahead behind a text that has been taken. -/
theorem ahead_advanceBy_length {cursor : Cursor} {s rest : Text} (h : cursor.ahead = s ++ rest) :
    (cursor.advanceBy s.length).ahead = rest := by
  rw [Cursor.ahead_advanceBy, h, List.drop_left]

/-- What is found may be said more weakly. -/
theorem Takes.mono {g : Grammar R α} {s rest : Text} {P Q : α → Prop}
    (h : Takes room n g s rest P) (hPQ : ∀ v, P v → Q v) : Takes room n g s rest Q := by
  intro scope cursor journal hn ha
  obtain ⟨v, journal', hrun, hv⟩ := h scope cursor journal hn ha
  exact ⟨v, journal', hrun, hPQ v hv⟩

/-! ### Sequences -/

/-- A value is found without taking anything. -/
theorem takes_pure {v : α} {rest : Text} {P : α → Prop} (hv : P v) :
    Takes room n (Pure.pure v : Grammar R α) [] rest P := by
  intro scope cursor journal _ _
  exact ⟨v, journal, by rw [run_pure]; rfl, hv⟩

/-- The first grammar takes the first part of a text and the second one what follows it. -/
theorem Takes.bind {g : Grammar R α} {f : α → Grammar R β} {s t rest : Text} {P : α → Prop}
    {Q : β → Prop} (hg : Takes room n g s (t ++ rest) P)
    (hf : ∀ v, P v → Takes room n (f v) t rest Q) : Takes room n (g >>= f) (s ++ t) rest Q := by
  intro scope cursor journal hn ha
  rw [List.append_assoc] at ha
  obtain ⟨v, j, hrun, hv⟩ := hg scope cursor journal hn ha
  obtain ⟨w, j', hrun', hw⟩ := hf v hv scope _ j hn (ahead_advanceBy_length ha)
  refine ⟨w, j', ?_, hw⟩
  rw [run_bind, Parser.bind, hrun, List.length_append, ← Cursor.advanceBy_advanceBy]
  exact hrun'

/-- The first grammar only looks. -/
theorem Takes.look_bind {g : Grammar R α} {f : α → Grammar R β} {s rest : Text} {P : α → Prop}
    {Q : β → Prop} (hg : Takes room n g [] (s ++ rest) P)
    (hf : ∀ v, P v → Takes room n (f v) s rest Q) : Takes room n (g >>= f) s rest Q :=
  Takes.bind (s := []) hg hf

/-- The second grammar takes nothing more. -/
theorem Takes.bind_done {g : Grammar R α} {f : α → Grammar R β} {s rest : Text} {P : α → Prop}
    {Q : β → Prop} (hg : Takes room n g s rest P)
    (hf : ∀ v, P v → Takes room n (f v) [] rest Q) : Takes room n (g >>= f) s rest Q := by
  have h := Takes.bind (t := []) hg hf
  rwa [List.append_nil] at h

/-- Sequences may be regrouped. -/
theorem run_bind_assoc {γ : Type} (room : Nat) (g : Grammar R α) (f : α → Grammar R β)
    (k : β → Grammar R γ) :
    run room (g >>= f >>= k) = run room (g >>= fun v => f v >>= k) := by
  funext scope cursor journal
  simp only [run_bind, Parser.bind]
  cases run room g scope cursor journal <;> rfl

/-- What is taken does not depend on the grouping. -/
theorem Takes.assoc {γ : Type} {g : Grammar R α} {f : α → Grammar R β} {k : β → Grammar R γ}
    {s rest : Text} {P : γ → Prop} (h : Takes room n (g >>= f >>= k) s rest P) :
    Takes room n (g >>= fun v => f v >>= k) s rest P := by
  intro scope cursor journal hn ha
  rw [← run_bind_assoc]
  exact h scope cursor journal hn ha

/-- A sequence fails where its first grammar does. -/
theorem refuses_bind {g : Grammar R α} {f : α → Grammar R β} {t : Text}
    (hg : Refuses room n g t) : Refuses room n (g >>= f) t := by
  intro scope cursor journal hn ha
  obtain ⟨e, j, hrun, he⟩ := hg scope cursor journal hn ha
  exact ⟨e, j, by rw [run_bind, Parser.bind, hrun], he⟩

/-- A sequence fails when its second grammar does, behind what the first one takes. -/
theorem Takes.refuses_bind {g : Grammar R α} {f : α → Grammar R β} {s rest : Text} {P : α → Prop}
    (hg : Takes room n g s rest P) (hf : ∀ v, P v → Refuses room n (f v) rest) :
    Refuses room n (g >>= f) (s ++ rest) := by
  intro scope cursor journal hn ha
  obtain ⟨v, j, hrun, hv⟩ := hg scope cursor journal hn ha
  obtain ⟨e, j', hrun', he⟩ := hf v hv scope _ j hn (ahead_advanceBy_length ha)
  exact ⟨e, j', by rw [run_bind, Parser.bind, hrun]; exact hrun', he⟩

/-! ### Reading -/

/-- A reader takes what it reads. -/
theorem takes_read {reader : Reader α} {s rest : Text} {v : α} {P : α → Prop}
    (h : reader (s ++ rest) = .took v s.length) (hv : P v) :
    Takes room n (read reader : Grammar R α) s rest P := by
  intro scope cursor journal _ ha
  refine ⟨v, journal, ?_, hv⟩
  rw [run_read, Parser.read, Cursor.read, ha, h]

/-- A complaint is a failure that an alternative recovers from. -/
theorem refuses_read {reader : Reader α} {t : Text} {complaint : Complaint}
    (h : reader t = .fault complaint) : Refuses room n (read reader : Grammar R α) t := by
  intro scope cursor journal _ ha
  let location := (cursor.advanceBy complaint.distance).location
  refine ⟨complaint.error location scope, .raised (complaint.error location scope) :: journal, ?_, rfl⟩
  rw [run_read, Parser.read, Cursor.read, ha, h]

theorem takes_note {complaint : Text → Complaint} {rest : Text} :
    Takes room n (note complaint : Grammar R Unit) [] rest fun _ => True := by
  intro scope cursor journal _ _
  exact ⟨(), _, by rw [run_note]; rfl, trivial⟩

theorem takes_here {rest : Text} :
    Takes room n (here : Grammar R Location) [] rest fun _ => True := by
  intro scope cursor journal _ _
  exact ⟨_, journal, by rw [run_here]; rfl, trivial⟩

theorem takes_nesting {rest : Text} :
    Takes room n (nesting : Grammar R Nat) [] rest (· = n) := by
  intro scope cursor journal hn _
  exact ⟨n, journal, by rw [run_nesting, Parser.nesting, hn]; rfl, rfl⟩

/-! ### Rules and brackets -/

/-- A rule takes what its body takes. -/
theorem takes_call {rule : R α} {s rest : Text} {P : α → Prop}
    (h : Takes room n (RuleSet.body rule) s rest P) : Takes (room + 1) n (call rule) s rest P := by
  intro scope cursor journal hn ha
  rw [run_call]
  exact h _ cursor journal hn ha

/-- A rule fails where its body does. -/
theorem refuses_call {rule : R α} {t : Text} (h : Refuses room n (RuleSet.body rule) t) :
    Refuses (room + 1) n (call rule) t := by
  intro scope cursor journal hn ha
  rw [run_call]
  exact h _ cursor journal hn ha

/-- Inside one bracket more. -/
theorem takes_bracketed {g : Grammar R α} {s rest : Text} {P : α → Prop}
    (h : Takes room (n + 1) g s rest P) : Takes room n (bracketed g) s rest P := by
  intro scope cursor journal hn ha
  rw [run_bracketed]
  exact h _ cursor journal (by rw [hn]) ha

/-! ### Alternatives -/

/-- What is tried is found. -/
theorem takes_attempt {g : Grammar R α} {s rest : Text} {P : α → Prop}
    (h : Takes room n g s rest P) :
    Takes room n (attempt g) s rest fun found => ∃ v, found = some v ∧ P v := by
  intro scope cursor journal hn ha
  obtain ⟨v, j, hrun, hv⟩ := h scope cursor journal hn ha
  exact ⟨some v, j, by rw [run_attempt, Parser.attempt, hrun], v, rfl, hv⟩

/-- The first alternative takes it, so the second one is not tried. -/
theorem takes_orElse_left {g h : Grammar R α} {s rest : Text} {P : α → Prop}
    (hg : Takes room n g s rest P) : Takes room n (orElse g h) s rest P := by
  intro scope cursor journal hn ha
  obtain ⟨v, j, hrun, hv⟩ := hg scope cursor journal hn ha
  exact ⟨v, j, by rw [run_orElse, Parser.orElse, hrun], hv⟩

/-- The first alternative fails, and the second one takes it from the same place. -/
theorem takes_orElse_right {g h : Grammar R α} {s rest : Text} {P : α → Prop}
    (hg : Refuses room n g (s ++ rest)) (hh : Takes room n h s rest P) :
    Takes room n (orElse g h) s rest P := by
  intro scope cursor journal hn ha
  obtain ⟨e, j, hrun, he⟩ := hg scope cursor journal hn ha
  -- the second alternative is tried with the journal that the first one has left
  obtain ⟨v, j', hrun', hv⟩ := hh scope cursor j hn ha
  refine ⟨v, j', ?_, hv⟩
  rw [run_orElse, Parser.orElse, hrun]
  simp only [Failure.recoverable?, he, if_true, hrun']

/-- Where both alternatives fail, one of the failures is raised. -/
theorem refuses_orElse {g h : Grammar R α} {t : Text} (hg : Refuses room n g t)
    (hh : Refuses room n h t) : Refuses room n (orElse g h) t := by
  intro scope cursor journal hn ha
  obtain ⟨e, j, hrun, he⟩ := hg scope cursor journal hn ha
  obtain ⟨e', j', hrun', he'⟩ := hh scope cursor j hn ha
  refine ⟨Parser.further e e', j', ?_, ?_⟩
  · rw [run_orElse, Parser.orElse, hrun]
    simp only [Failure.recoverable?, he, he', if_true, hrun']
  · -- either failure may be the one that is raised
    unfold Parser.further
    split <;> assumption

/-- A choice takes what one of its alternatives takes, when those before it fail recoverably. -/
theorem takes_choice {before after : List (Grammar R α)} {g : Grammar R α} {s rest : Text}
    {P : α → Prop} (hbefore : ∀ h ∈ before, Refuses room n h (s ++ rest))
    (hg : Takes room n g s rest P) : Takes room n (choice (before ++ g :: after)) s rest P := by
  -- the last alternative of a choice is not tried apart, so the case split is on what comes next
  induction before with
  | nil =>
    cases after with
    | nil => exact hg
    | cons => exact takes_orElse_left hg
  | cons h before ih =>
    have hrest := ih fun h' hh' => hbefore h' (List.mem_cons_of_mem h hh')
    have hh := hbefore h List.mem_cons_self
    cases before with
    | nil => exact takes_orElse_right hh hrest
    | cons => exact takes_orElse_right hh hrest

/-- A choice takes what the alternative at a place takes, when those before it fail recoverably. -/
theorem takes_choice_at {alternatives : List (Grammar R α)} {g : Grammar R α} {s rest : Text}
    {P : α → Prop} (i : Nat) (hi : alternatives[i]? = some g)
    (hbefore : ∀ j < i, ∀ h, alternatives[j]? = some h → Refuses room n h (s ++ rest))
    (hg : Takes room n g s rest P) : Takes room n (choice alternatives) s rest P := by
  obtain ⟨hlt, hget⟩ := List.getElem?_eq_some_iff.mp hi
  have hsplit : alternatives = alternatives.take i ++ g :: alternatives.drop (i + 1) := by
    rw [← hget, ← List.drop_eq_getElem_cons hlt, List.take_append_drop]
  rw [hsplit]
  refine takes_choice (fun h hh => ?_) hg
  obtain ⟨j, hj, hget'⟩ := List.mem_take_iff_getElem.mp hh
  have hji : j < i := by omega
  exact hbefore j hji h (List.getElem?_eq_some_iff.mpr ⟨by omega, hget'⟩)

theorem refuses_choice {g : Grammar R α} {rest : List (Grammar R α)} {t : Text}
    (h : ∀ h ∈ g :: rest, Refuses room n h t) : Refuses room n (choice (g :: rest)) t := by
  induction rest generalizing g with
  | nil => exact h g List.mem_cons_self
  | cons g' rest ih =>
    exact refuses_orElse (h g List.mem_cons_self)
      (ih fun h' hh' => h h' (List.mem_cons_of_mem g hh'))

/-! ### Going back -/

theorem takes_rewindIf {forget : α → Bool} {g : Grammar R α} {s rest : Text} {P : α → Prop}
    (h : Takes room n g s rest fun v => P v ∧ forget v = false) :
    Takes room n (rewindIf forget g) s rest P := by
  intro scope cursor journal hn ha
  obtain ⟨v, j, hrun, hv, hforget⟩ := h scope cursor journal hn ha
  exact ⟨v, j, by rw [run_rewindIf, Parser.rewindIf, hrun]; simp [hforget], hv⟩

/-- What was looked at is not taken when what was found is to be forgotten. -/
theorem takes_rewindIf_forget {forget : α → Bool} {g : Grammar R α} {s rest : Text} {P : α → Prop}
    (h : Takes room n g s rest fun v => P v ∧ forget v = true) :
    Takes room n (rewindIf forget g) [] (s ++ rest) P := by
  intro scope cursor journal hn ha
  obtain ⟨v, j, hrun, hv, hforget⟩ := h scope cursor journal hn ha
  exact ⟨v, j, by rw [run_rewindIf, Parser.rewindIf, hrun]; simp [hforget], hv⟩

/-- An optional grammar that finds something. -/
theorem takes_optional {g : Grammar R (Option α)} {s rest : Text} {P : α → Prop}
    (h : Takes room n g s rest fun found => ∃ v, found = some v ∧ P v) :
    Takes room n (optional g) s rest fun found => ∃ v, found = some v ∧ P v := by
  refine takes_rewindIf (h.mono ?_)
  rintro _ ⟨v, rfl, hv⟩
  exact ⟨⟨v, rfl, hv⟩, rfl⟩

/-- An optional grammar that finds nothing takes nothing. -/
theorem takes_optional_nothing {g : Grammar R (Option α)} {s rest : Text}
    (h : Takes room n g s rest (· = none)) :
    Takes room n (optional g) [] (s ++ rest) (· = none) := by
  refine takes_rewindIf_forget (h.mono ?_)
  rintro _ rfl
  exact ⟨rfl, rfl⟩

/-! ### Loops -/

/--
From every state with `P`, the turns of a loop take `s` when `rest` follows, and end in a state with
`Q`, however many turns more than there are units ahead the run allows.
-/
def Loops (room n : Nat) (turn : σ → Grammar R (Next σ)) (s rest : Text) (P Q : σ → Prop) : Prop :=
  ∀ (x : σ), P x → ∀ (scope : Scope) (cursor : Cursor) (journal : Journal),
    scope.nesting = n → cursor.ahead = s ++ rest →
      ∀ turns, cursor.ahead.length < turns →
        ∃ y journal', Parser.turns (fun z => run room (turn z)) turns x scope cursor journal
          = .finished y (cursor.advanceBy s.length) journal' ∧ Q y

/-- The last turn. -/
theorem loops_done {turn : σ → Grammar R (Next σ)} {s rest : Text} {P Q : σ → Prop}
    (h : ∀ x, P x → Takes room n (turn x) s rest fun next => ∃ y, next = .done y ∧ Q y) :
    Loops room n turn s rest P Q := by
  intro x hx scope cursor journal hn ha turns hturns
  obtain ⟨turns, rfl⟩ : ∃ k, turns = k + 1 := ⟨turns - 1, by omega⟩
  obtain ⟨_, j, hrun, y, rfl, hy⟩ := h x hx scope cursor journal hn ha
  exact ⟨y, j, by simp only [Parser.turns, Parser.bind, hrun]; rfl, hy⟩

/-- A turn that asks for another one, and takes something. -/
theorem Loops.again {turn : σ → Grammar R (Next σ)} {s t rest : Text} {P Q S : σ → Prop}
    (h : ∀ x, P x → Takes room n (turn x) s (t ++ rest) fun next => ∃ y, next = .again y ∧ S y)
    (hs : s ≠ []) (hrest : Loops room n turn t rest S Q) :
    Loops room n turn (s ++ t) rest P Q := by
  intro x hx scope cursor journal hn ha turns hturns
  rw [List.append_assoc] at ha
  obtain ⟨turns, rfl⟩ : ∃ k, turns = k + 1 := ⟨turns - 1, by omega⟩
  obtain ⟨_, j, hrun, y, rfl, hy⟩ := h x hx scope cursor journal hn ha
  have hahead := ahead_advanceBy_length ha
  -- what is taken pays for the turn: the turns that are left still exceed what is ahead
  have hshorter : (cursor.advanceBy s.length).ahead.length < turns := by
    have hpos := List.length_pos_iff.mpr hs
    rw [ha, List.length_append] at hturns
    rw [hahead]
    omega
  obtain ⟨z, j', hrun', hz⟩ := hrest y hy scope _ j hn hahead turns hshorter
  refine ⟨z, j', ?_, hz⟩
  simp only [Parser.turns, Parser.bind, hrun, List.length_append, ← Cursor.advanceBy_advanceBy]
  exact hrun'

theorem Loops.takes {turn : σ → Grammar R (Next σ)} {s rest : Text} {P Q : σ → Prop} {x : σ}
    (h : Loops room n turn s rest P Q) (hx : P x) : Takes room n (iterate turn x) s rest Q := by
  intro scope cursor journal hn ha
  rw [run_iterate]
  exact h x hx scope cursor journal hn ha _ (Nat.lt_succ_self _)

end GDScript.Grammar
