import GDScript.Proofs.Progress
import Mathlib.Data.List.Forall2

/-!
# Two runs side by side

`Grammar.Pairs r room n g g' c c' Q` says that the runs of `g` from `c` and of `g'` from `c'`, both
inside `n` brackets, go alike: either both find something, and what they find and where they end is
related by `Q`, or both fail. What the two runs report need not be the same; `Reports` says how the
places, the complaints, the errors and the journals of one run go with those of the other, and which
laws that needs.

Each constructor of `Grammar` has a rule. The two grammars take the same branches, so they differ in
what they are indexed by only; a rule of the one grammar goes with a renamed rule of the other,
under the same label (`pairs_call_of_bodies`). `Grammar.Carries` says the same of all pairs of
cursors with some relation, apart from what is found.
-/

namespace GDScript

/-! ### What is reported -/

/-- Two events of the same kind, about errors that go together. -/
inductive Event.Pairs (error : ParseError → ParseError → Prop) : Event → Event → Prop where
  | raised {e e' : ParseError} (h : error e e') : Event.Pairs error (.raised e) (.raised e')
  | noted {e e' : ParseError} (h : error e e') : Event.Pairs error (.noted e) (.noted e')
  | exceeded {e e' : ParseError} (h : error e e') : Event.Pairs error (.exceeded e) (.exceeded e')
  | abandoned {e e' : ParseError} (h : error e e') :
    Event.Pairs error (.abandoned e) (.abandoned e')

/-- How what one run reports goes with what the other one does. -/
structure Reports where
  /-- The places of the two runs. -/
  place : Location → Location → Prop
  /-- The complaints, apart from the places that they are about. -/
  complaint : Complaint → Complaint → Prop
  error : ParseError → ParseError → Prop
  journal : Journal → Journal → Prop
  /-- What holds around the cursors. -/
  scope : Scope → Scope → Prop
  /-- It does not matter how far ahead the places are. -/
  shift {k k' : Complaint} {distance distance' : Nat} (hk : complaint k k') :
    complaint (k.shift distance) (k'.shift distance')
  /-- A complaint that is raised becomes an error. -/
  raise {k k' : Complaint} {l l' : Location} {s s' : Scope} (hk : complaint k k')
    (hl : place l l') (hs : scope s s') : error (k.error l s) (k'.error l' s')
  tooDeep {l l' : Location} {s s' : Scope} (hl : place l l') (hs : scope s s') :
    error (s.tooDeep l) (s'.tooDeep l')
  nesting {s s' : Scope} (hs : scope s s') : s.nesting = s'.nesting
  /-- Both runs enter a bracket. -/
  nest {s s' : Scope} (hs : scope s s') :
    scope { s with nesting := s.nesting + 1 } { s' with nesting := s'.nesting + 1 }
  /-- Both runs enter a rule with the same label. -/
  enter {s s' : Scope} {label : Text} {l l' : Location} (hs : scope s s') (hl : place l l') :
    scope { s with frames := ⟨label, l⟩ :: s.frames } { s' with frames := ⟨label, l'⟩ :: s'.frames }
  /-- The runs recover from the same errors. -/
  recoverable {e e' : ParseError} (h : error e e') : e.recoverable = e'.recoverable
  /-- Of two errors that were recovered from, the same one got further. -/
  further {e e' f f' : ParseError} (he : error e e') (hf : error f f')
    (hrec : e.recoverable = true ∧ f.recoverable = true) :
    error (Parser.further e f) (Parser.further e' f')
  record {v v' : Event} {j j' : Journal} (hv : v.Pairs error v') (hj : journal j j') :
    journal (v :: j) (v' :: j')

/-- A run recovers from an error where the other one does. -/
theorem Reports.recoverable?_cases (r : Reports) {e e' : ParseError} (he : r.error e e') :
    (Failure.recoverable? (.parse e) = none ∧ Failure.recoverable? (.parse e') = none) ∨
      (Failure.recoverable? (.parse e) = some e ∧ Failure.recoverable? (.parse e') = some e' ∧
        e.recoverable = true) := by
  have h := r.recoverable he
  cases hrec : e.recoverable with
  | false => exact .inl (by simp [Failure.recoverable?, ← h, hrec])
  | true => exact .inr (by simp [Failure.recoverable?, ← h, hrec])

theorem Parser.further_cases (e f : ParseError) : Parser.further e f = e ∨ Parser.further e f = f := by
  unfold Parser.further
  split
  · exact .inr rfl
  · exact .inl rfl

/--
Reports that go together in whether a run recovers from them, apart from the places. Which rules are
active does not matter.
-/
def Reports.loose (place : Location → Location → Prop) : Reports where
  place := place
  complaint _ _ := True
  error e e' := e.recoverable = e'.recoverable
  journal _ _ := True
  scope s s' := s.nesting = s'.nesting
  shift _ := trivial
  raise _ _ _ := rfl
  tooDeep _ _ := rfl
  nesting hs := hs
  nest hs := congrArg Nat.succ hs
  enter hs _ := hs
  recoverable h := h
  -- which error is further may differ; both are recoverable, and that is all that is kept
  further {e e' f f'} he hf hrec := by
    have h : (Parser.further e f).recoverable = true := by
      rcases Parser.further_cases e f with h | h <;> simp only [h, hrec]
    have h' : (Parser.further e' f').recoverable = true := by
      rcases Parser.further_cases e' f' with h | h <;> simp only [h, ← he, ← hf, hrec]
    rw [h, h']
  record _ _ := trivial

/-! ### How two runs end -/

/-- Both runs find something, and `Q` holds of what they find and where; or both of them fail. -/
inductive Outcome.Pairs {α : Type} (r : Reports) (Q : α → α → Cursor → Cursor → Prop) :
    Outcome α → Outcome α → Prop where
  | finished {v v' : α} {c c' : Cursor} {j j' : Journal} (h : Q v v' c c') (hj : r.journal j j') :
    Outcome.Pairs r Q (.finished v c j) (.finished v' c' j')
  | failed {e e' : ParseError} {j j' : Journal} (h : r.error e e') (hj : r.journal j j') :
    Outcome.Pairs r Q (.failed (.parse e) j) (.failed (.parse e') j')

/-- Failures that go together are related. -/
def Reports.Fails {α : Type} (r : Reports) (S : Outcome α → Outcome α → Prop) : Prop :=
  ∀ e e' j j', r.error e e' → r.journal j j' → S (.failed (.parse e) j) (.failed (.parse e') j')

/-- Both readers take something from where the cursors stand, or both complain. -/
inductive Reading.Pairs {α : Type} (r : Reports) (Q : α → α → Cursor → Cursor → Prop)
    (c c' : Cursor) : Reading α → Reading α → Prop where
  | took {v v' : α} {k k' : Nat} (h : Q v v' (c.advanceBy k) (c'.advanceBy k')) :
    Reading.Pairs r Q c c' (.took v k) (.took v' k')
  | fault {k k' : Complaint} (hk : r.complaint k k')
      (hl : r.place (c.advanceBy k.distance).location (c'.advanceBy k'.distance).location) :
    Reading.Pairs r Q c c' (.fault k) (.fault k')

/-- Both turns ask for the end, or both ask for another turn. -/
def Next.Pairs {σ : Type} (I Q : σ → σ → Cursor → Cursor → Prop) :
    Next σ → Next σ → Cursor → Cursor → Prop
  | .again x, .again x', c, c' => I x x' c c'
  | .done x, .done x', c, c' => Q x x' c c'
  | _, _, _, _ => False

/-- Both turns ask for the same, and the states are related. -/
def Next.Rel {σ : Type} (V : σ → σ → Prop) : Next σ → Next σ → Prop
  | .again x, .again x' | .done x, .done x' => V x x'
  | _, _ => False

namespace Grammar

variable {R : Type → Type} [RuleSet R] {α β σ : Type} {r : Reports} {room n : Nat} {c c' : Cursor}

/-- The runs of two grammars, inside `n` brackets, go alike. -/
def Pairs (r : Reports) (room n : Nat) (g g' : Grammar R α) (c c' : Cursor)
    (Q : α → α → Cursor → Cursor → Prop) : Prop :=
  ∀ s s' j j', r.scope s s' → s.nesting = n → r.journal j j' →
    Outcome.Pairs r Q (run room g s c j) (run room g' s' c' j')

/-- The outcomes of two grammars, inside `n` brackets, are related. -/
def Relates (r : Reports) (room n : Nat) (S : Outcome α → Outcome α → Prop) (g g' : Grammar R α)
    (c c' : Cursor) : Prop :=
  ∀ s s' j j', r.scope s s' → s.nesting = n → r.journal j j' →
    S (run room g s c j) (run room g' s' c' j')

section Combinators

variable {g g' h h' : Grammar R α} {P Q : α → α → Cursor → Cursor → Prop}

theorem Pairs.mono (hg : Pairs r room n g g' c c' P)
    (hPQ : ∀ v v' d d', P v v' d d' → Q v v' d d') : Pairs r room n g g' c c' Q := by
  intro s s' j j' hs hn hj
  have hrun := hg s s' j j' hs hn hj
  generalize run room g s c j = o, run room g' s' c' j' = o' at hrun ⊢
  cases hrun with
  | finished hP hj => exact .finished (hPQ _ _ _ _ hP) hj
  | failed he hj => exact .failed he hj

/-- Each run also finds what it finds without the other one. -/
theorem Pairs.and_yields {S S' : α → Cursor → Prop} (hg : Pairs r room n g g' c c' Q)
    (hS : Yields room g c S) (hS' : Yields room g' c' S') :
    Pairs r room n g g' c c' fun v v' d d' => Q v v' d d' ∧ S v d ∧ S' v' d' := by
  intro s s' j j' hs hn hj
  have hrun := hg s s' j j' hs hn hj
  have hv := hS s j
  have hv' := hS' s' j'
  generalize run room g s c j = o, run room g' s' c' j' = o' at hrun hv hv' ⊢
  cases hrun with
  | finished hQ hj => exact .finished ⟨hQ, hv _ _ _ rfl, hv' _ _ _ rfl⟩ hj
  | failed he hj => exact .failed he hj

/-! ### Sequences and readers -/

theorem pairs_pure {v v' : α} (h : Q v v' c c') :
    Pairs r room n (Pure.pure v : Grammar R α) (Pure.pure v') c c' Q := by
  intro s s' j j' _ _ hj
  rw [run_pure, run_pure]
  exact .finished h hj

/-- Two runs that go alike are followed by outcomes that are related. -/
theorem Pairs.then {f f' : α → Grammar R β} {S : Outcome β → Outcome β → Prop}
    (hg : Pairs r room n g g' c c' Q) (hfails : r.Fails S)
    (hf : ∀ v v' d d', Q v v' d d' → Relates r room n S (f v) (f' v') d d') :
    Relates r room n S (g >>= f) (g' >>= f') c c' := by
  intro s s' j j' hs hn hj
  have hrun := hg s s' j j' hs hn hj
  simp only [run_bind, Parser.bind]
  generalize run room g s c j = o, run room g' s' c' j' = o' at hrun ⊢
  cases hrun with
  | finished hQ hj => exact hf _ _ _ _ hQ s s' _ _ hs hn hj
  | failed he hj => exact hfails _ _ _ _ he hj

theorem Pairs.bind {f f' : α → Grammar R β} {S : β → β → Cursor → Cursor → Prop}
    (hg : Pairs r room n g g' c c' Q)
    (hf : ∀ v v' d d', Q v v' d d' → Pairs r room n (f v) (f' v') d d' S) :
    Pairs r room n (g >>= f) (g' >>= f') c c' S :=
  hg.then (S := Outcome.Pairs r S) (fun _ _ _ _ => .failed) hf

theorem pairs_read {reader reader' : Reader α}
    (h : Reading.Pairs r Q c c' (reader c.ahead) (reader' c'.ahead)) :
    Pairs r room n (read reader : Grammar R α) (read reader') c c' Q := by
  intro s s' j j' hs _ hj
  simp only [run_read, Parser.read, Cursor.read]
  generalize reader c.ahead = o, reader' c'.ahead = o' at h
  cases h with
  | took hQ => exact .finished hQ hj
  | fault hk hl => exact .failed (r.raise hk hl hs) (r.record (.raised (r.raise hk hl hs)) hj)

theorem pairs_look_bind {f f' : Text → α} {k k' : α → Grammar R β}
    {S : β → β → Cursor → Cursor → Prop}
    (h : Pairs r room n (k (f c.ahead)) (k' (f' c'.ahead)) c c' S) :
    Pairs r room n (look f >>= k) (look f' >>= k') c c' S := by
  refine Pairs.bind (Q := fun v v' d d' => v = f c.ahead ∧ v' = f' c'.ahead ∧ d = c ∧ d' = c')
    (pairs_read (.took ⟨rfl, rfl, rfl, rfl⟩)) ?_
  rintro _ _ _ _ ⟨rfl, rfl, rfl, rfl⟩
  exact h

theorem relates_here_bind {k k' : Location → Grammar R β} {S : Outcome β → Outcome β → Prop}
    (h : Relates r room n S (k c.location) (k' c'.location) c c') :
    Relates r room n S (here >>= k) (here >>= k') c c' := by
  intro s s' j j' hs hn hj
  simp only [run_bind, Parser.bind, run_here, Parser.here]
  exact h s s' j j' hs hn hj

theorem pairs_here_bind {k k' : Location → Grammar R β} {S : β → β → Cursor → Cursor → Prop}
    (h : Pairs r room n (k c.location) (k' c'.location) c c' S) :
    Pairs r room n (here >>= k) (here >>= k') c c' S :=
  relates_here_bind (S := Outcome.Pairs r S) h

theorem pairs_nesting_bind {k k' : Nat → Grammar R β} {S : β → β → Cursor → Cursor → Prop}
    (h : Pairs r room n (k n) (k' n) c c' S) :
    Pairs r room n (nesting >>= k) (nesting >>= k') c c' S := by
  intro s s' j j' hs hn hj
  simp only [run_bind, Parser.bind, run_nesting, Parser.nesting]
  rw [← r.nesting hs, hn]
  exact h s s' j j' hs hn hj

theorem pairs_note {complaint complaint' : Text → Complaint}
    {Q : Unit → Unit → Cursor → Cursor → Prop}
    (hk : r.complaint (complaint c.ahead) (complaint' c'.ahead))
    (hl : r.place (c.advanceBy (complaint c.ahead).distance).location
      (c'.advanceBy (complaint' c'.ahead).distance).location) (h : Q () () c c') :
    Pairs r room n (note complaint : Grammar R Unit) (note complaint') c c' Q := by
  intro s s' j j' hs _ hj
  simp only [run_note, Parser.note]
  exact .finished h (r.record (.noted (r.raise hk hl hs)) hj)

/-- Only the second run complains, which does not matter where any journals go together. -/
theorem pairs_pure_note {complaint : Text → Complaint} {v v' : α}
    (hjournal : ∀ j j', r.journal j j') (h : Q v v' c c') :
    Pairs r room n (Pure.pure v : Grammar R α) (do note complaint; Pure.pure v') c c' Q := by
  intro s s' j j' _ _ _
  simp only [run_pure, run_bind, Parser.bind, run_note, Parser.note]
  exact .finished h (hjournal _ _)

/-- Both runs are blamed for what got furthest, or neither of them is. -/
theorem Pairs.blame (hg : Pairs r room n g g' c c' Q)
    (hfurthest : ∀ {j j'}, r.journal j j' → (j.furthest = none ∧ j'.furthest = none) ∨
      ∃ e e', r.error e e' ∧ j.furthest = some e ∧ j'.furthest = some e' ∧
        (c.location.offset ≤ e.location.offset ↔ c'.location.offset ≤ e'.location.offset)) :
    Pairs r room n (blame g) (blame g') c c' Q := by
  intro s s' j j' hs hn hj
  rw [run_eq_runWith, run_eq_runWith]
  simp only [runWith, Parser.blame, ← run_eq_runWith]
  rcases hfurthest hj with ⟨hnone, hnone'⟩ | ⟨e, e', he, hsome, hsome', hle⟩
  · simp only [hnone, hnone']
    exact hg s s' j j' hs hn hj
  · simp only [hsome, hsome', hle]
    split
    · exact .failed he hj
    · exact hg s s' j j' hs hn hj

/-! ### Brackets and alternatives -/

theorem Pairs.bracketed (hg : Pairs r room (n + 1) g g' c c' Q) :
    Pairs r room n (bracketed g) (bracketed g') c c' Q := by
  intro s s' j j' hs hn hj
  rw [run_bracketed, run_bracketed]
  exact hg _ _ j j' (r.nest hs) (congrArg Nat.succ hn) hj

theorem Pairs.attempt {Q : Option α → Option α → Cursor → Cursor → Prop}
    (hg : Pairs r room n g g' c c' fun v v' => Q (some v) (some v')) (hnone : Q none none c c') :
    Pairs r room n (attempt g) (attempt g') c c' Q := by
  intro s s' j j' hs hn hj
  have hrun := hg s s' j j' hs hn hj
  simp only [run_attempt, Parser.attempt]
  generalize run room g s c j = o, run room g' s' c' j' = o' at hrun ⊢
  cases hrun with
  | finished hQ hj => exact .finished hQ hj
  | failed he hj =>
    rcases r.recoverable?_cases he with ⟨h, h'⟩ | ⟨h, h', -⟩ <;> simp only [h, h']
    · exact .failed he hj
    · exact .finished hnone (r.record (.abandoned he) hj)

theorem Pairs.orElse (hg : Pairs r room n g g' c c' Q) (hh : Pairs r room n h h' c c' Q) :
    Pairs r room n (orElse g h) (orElse g' h') c c' Q := by
  intro s s' j j' hs hn hj
  have hrun := hg s s' j j' hs hn hj
  simp only [run_orElse, Parser.orElse]
  generalize run room g s c j = o, run room g' s' c' j' = o' at hrun ⊢
  -- the second alternative is run on both sides or on neither, since recoverable errors are paired
  cases hrun with
  | finished hQ hj => exact .finished hQ hj
  | @failed e e' i i' he hi =>
    rcases r.recoverable?_cases he with ⟨hnot, hnot'⟩ | ⟨hfirst, hfirst', hrec⟩
    · simp only [hnot, hnot']
      exact .failed he hi
    · have hrun := hh s s' i i' hs hn hi
      simp only [hfirst, hfirst']
      generalize run room h s c i = o, run room h' s' c' i' = o' at hrun ⊢
      cases hrun with
      | finished hQ hj => exact .finished hQ hj
      | failed hf hj =>
        rcases r.recoverable?_cases hf with ⟨hnot, hnot'⟩ | ⟨hsecond, hsecond', hrec'⟩
        · simp only [hnot, hnot']
          exact .failed hf hj
        · simp only [hsecond, hsecond']
          exact .failed (r.further he hf ⟨hrec, hrec'⟩) hj

theorem pairs_choice {alternatives alternatives' : List (Grammar R α)} (hne : alternatives ≠ [])
    (h : List.Forall₂ (fun g g' => Pairs r room n g g' c c' Q) alternatives alternatives') :
    Pairs r room n (choice alternatives) (choice alternatives') c c' Q := by
  induction h with
  | nil => exact absurd rfl hne
  | @cons g g' rest rest' hg hrest ih =>
    cases hrest with
    | nil => exact hg
    | cons hnext hrest => exact hg.orElse (ih (List.cons_ne_nil _ _))

theorem Pairs.rewindIf {forget : α → Bool}
    (hg : Pairs r room n g g' c c' fun v v' d d' =>
      Q v v' (if forget v then c else d) (if forget v' then c' else d')) :
    Pairs r room n (rewindIf forget g) (rewindIf forget g') c c' Q := by
  intro s s' j j' hs hn hj
  have hrun := hg s s' j j' hs hn hj
  simp only [run_rewindIf, Parser.rewindIf]
  generalize run room g s c j = o, run room g' s' c' j' = o' at hrun ⊢
  cases hrun with
  | finished hQ hj => exact .finished hQ hj
  | failed he hj => exact .failed he hj

/-- Either both grammars find something, or both find nothing and take nothing. -/
theorem Pairs.optional {g g' : Grammar R (Option α)}
    {Q : Option α → Option α → Cursor → Cursor → Prop}
    (hg : Pairs r room n g g' c c' fun v v' d d' =>
      (v = none ∧ v' = none) ∨ ∃ w w', v = some w ∧ v' = some w' ∧ Q v v' d d')
    (hnone : Q none none c c') : Pairs r room n (optional g) (optional g') c c' Q := by
  refine Pairs.rewindIf (hg.mono fun v v' d d' hv => ?_)
  rcases hv with ⟨rfl, rfl⟩ | ⟨w, w', rfl, rfl, hQ⟩
  · exact hnone
  · exact hQ

end Combinators

/-! ### Loops -/

/-- Where every turn that asks for another one takes a unit, it does not matter how many are allowed. -/
theorem turns_eq {turn : σ → Grammar R (Next σ)} {x : σ} {k m : Nat} {s : Scope} {j : Journal}
    (hturn : TurnsAdvance room turn) (hk : c.ahead.length < k) (hm : c.ahead.length < m) :
    Parser.turns (fun x => run room (turn x)) k x s c j
      = Parser.turns (fun x => run room (turn x)) m x s c j := by
  -- each turn takes a unit, so both counts of turns are enough
  induction k generalizing m x c j with
  | zero => exact absurd hk (Nat.not_lt_zero _)
  | succ k ih =>
    cases m with
    | zero => exact absurd hm (Nat.not_lt_zero _)
    | succ m =>
      have hlt := hturn x c s j
      simp only [Parser.turns, Parser.bind]
      cases hrun : run room (turn x) s c j with
      | failed failure j' => rfl
      | finished next d j' =>
        have hnext := hlt _ _ _ hrun
        cases next with
        | done y => rfl
        | again y => exact ih (by omega) (by omega)

/--
What holds of the states and the cursors before each turn, and where the loops lead. A turn goes with
a turn of the other loop, or all that is left of the loops goes together. Each run has as many turns
as it asks for, since every turn that asks for another one takes a unit.
-/
theorem Pairs.loop_beyond {turn turn' : σ → Grammar R (Next σ)} {x x' : σ}
    {I Q : σ → σ → Cursor → Cursor → Prop} (hturn : TurnsAdvance room turn)
    (hturn' : TurnsAdvance room turn') (hx : I x x' c c')
    (h : ∀ y y' d d', I y y' d d' → Pairs r room n (turn y) (turn' y') d d' (Next.Pairs I Q) ∨
      Pairs r room n (iterate turn y) (iterate turn' y') d d' Q) :
    Pairs r room n (iterate turn x) (iterate turn' x') c c' Q := by
  intro s s' j j' hs hn hj
  simp only [run_iterate, Parser.iterate]
  have hfuel : c.ahead.length < c.ahead.length + 1 := Nat.lt_succ_self _
  have hfuel' : c'.ahead.length < c'.ahead.length + 1 := Nat.lt_succ_self _
  -- the turns are counted from the start of each loop, so the induction is on any two numbers of them
  generalize c.ahead.length + 1 = k at hfuel
  generalize c'.ahead.length + 1 = k' at hfuel'
  induction k generalizing k' x x' c c' j j' with
  | zero => exact absurd hfuel (Nat.not_lt_zero _)
  | succ k ih =>
    rcases h x x' c c' hx with h | h
    · cases k' with
      | zero => exact absurd hfuel' (Nat.not_lt_zero _)
      | succ k' =>
        have hrun := (h.and_yields (hturn x c) (hturn' x' c')) s s' j j' hs hn hj
        simp only [Parser.turns, Parser.bind]
        generalize run room (turn x) s c j = o, run room (turn' x') s' c' j' = o' at hrun ⊢
        cases hrun with
        | failed he hj => exact .failed he hj
        | @finished v v' d d' i i' hv hi =>
          obtain ⟨hnext, hlt, hlt'⟩ := hv
          cases v with
          | done y =>
            cases v' with
            | done y' => exact .finished hnext hi
            | again y' => exact False.elim hnext
          | again y =>
            cases v' with
            | done y' => exact False.elim hnext
            | again y' =>
              have hlt : d.ahead.length < c.ahead.length := hlt
              have hlt' : d'.ahead.length < c'.ahead.length := hlt'
              exact ih hnext _ _ hi (by omega) k' (by omega)
    · have hrun := h s s' j j' hs hn hj
      simp only [run_iterate, Parser.iterate] at hrun
      rwa [turns_eq hturn (Nat.lt_succ_self _) hfuel,
        turns_eq hturn' (Nat.lt_succ_self _) hfuel'] at hrun

/-- Every turn goes with a turn of the other loop. -/
theorem Pairs.loop {turn turn' : σ → Grammar R (Next σ)} {x x' : σ}
    {I Q : σ → σ → Cursor → Cursor → Prop} (hturn : TurnsAdvance room turn)
    (hturn' : TurnsAdvance room turn') (hx : I x x' c c')
    (h : ∀ y y' d d', I y y' d d' → Pairs r room n (turn y) (turn' y') d d' (Next.Pairs I Q)) :
    Pairs r room n (iterate turn x) (iterate turn' x') c c' Q :=
  Pairs.loop_beyond hturn hturn' hx fun y y' d d' hy => .inl (h y y' d d' hy)

/-! ### Rules -/

/-- What becomes of two rules is what becomes of their bodies, with the room that is left for those. -/
theorem Relates.call {rule rule' : R α} {S : Outcome α → Outcome α → Prop}
    (hlabel : RuleSet.label rule' = RuleSet.label rule) (hplace : r.place c.location c'.location)
    (hfails : r.Fails S)
    (h : ∀ room', room = room' + 1 →
      Relates r room' n S (RuleSet.body rule) (RuleSet.body rule') c c') :
    Relates r room n S (Grammar.call rule) (Grammar.call rule') c c' := by
  intro s s' j j' hs hn hj
  cases room with
  | zero =>
    have he := r.tooDeep hplace hs
    exact hfails _ _ _ _ he (r.record (.exceeded he) hj)
  | succ room =>
    rw [run_call, run_call, hlabel]
    exact h room rfl _ _ j j' (r.enter hs hplace) hn hj

theorem Pairs.call {rule rule' : R α} {Q : α → α → Cursor → Cursor → Prop}
    (hlabel : RuleSet.label rule' = RuleSet.label rule) (hplace : r.place c.location c'.location)
    (h : ∀ room', room = room' + 1 →
      Pairs r room' n (RuleSet.body rule) (RuleSet.body rule') c c' Q) :
    Pairs r room n (Grammar.call rule) (Grammar.call rule') c c' Q :=
  Relates.call hlabel hplace (fun _ _ _ _ => .failed) h

/--
Rules of the one grammar go with renamed rules of the other: from cursors with `E`, what they find
and where they end is related by `S`, if this holds of their bodies when it holds of the rules that
those call. What `E` and `S` say may depend on what is open there, of which the depth is known.
-/
theorem pairs_call_of_bodies {ι : Type} (depth : ι → Nat) {rename : ∀ {β : Type}, R β → R β}
    {E : ∀ {β : Type}, R β → ι → Cursor → Cursor → Prop}
    {S : ∀ {β : Type}, R β → ι → β → β → Cursor → Cursor → Prop}
    (hlabel : ∀ {β : Type} (rule : R β), RuleSet.label (rename rule) = RuleSet.label rule)
    (hplace : ∀ {β : Type} (rule : R β) i c c', E rule i c c' → r.place c.location c'.location)
    (h : ∀ room, (∀ {β : Type} (rule : R β) i c c', E rule i c c' →
        Pairs r room (depth i) (call rule) (call (rename rule)) c c' (S rule i)) →
      ∀ {β : Type} (rule : R β) i c c', E rule i c c' →
        Pairs r room (depth i) (RuleSet.body rule) (RuleSet.body (rename rule)) c c' (S rule i))
    (room : Nat) (rule : R α) (i : ι) (c c' : Cursor) (hE : E rule i c c') :
    Pairs r room (depth i) (call rule) (call (rename rule)) c c' (S rule i) := by
  -- on the room: a body is run with one frame less than its call
  induction room generalizing α i c c' with
  | zero => exact Pairs.call (hlabel rule) (hplace rule i c c' hE) fun _ h => by cases h
  | succ room ih =>
    refine Pairs.call (hlabel rule) (hplace rule i c c' hE) fun room' hroom => ?_
    obtain rfl := Nat.succ.inj hroom
    exact h room (fun rule i c c' hE => ih rule i c c' hE) rule i c c' hE

/-! ### From all pairs of cursors -/

/--
From cursors with `A` the two runs go alike; what they find is related by `V`, and they leave cursors
with `B`.
-/
def Carries (r : Reports) (room n : Nat) (A : Cursor → Cursor → Prop) (g g' : Grammar R α)
    (V : α → α → Prop) (B : Cursor → Cursor → Prop) : Prop :=
  ∀ c c', A c c' → Pairs r room n g g' c c' fun v v' d d' => V v v' ∧ B d d'

section Carries

variable {A B C : Cursor → Cursor → Prop} {g g' h h' : Grammar R α} {V : α → α → Prop}

theorem Carries.mono {W : α → α → Prop} (hg : Carries r room n A g g' V B)
    (hV : ∀ v v', V v v' → W v v') (hB : ∀ d d', B d d' → C d d') :
    Carries r room n A g g' W C :=
  fun c c' hc => (hg c c' hc).mono fun v v' d d' hv => ⟨hV v v' hv.1, hB d d' hv.2⟩

theorem carries_pure {v v' : α} (hv : V v v') :
    Carries r room n A (Pure.pure v : Grammar R α) (Pure.pure v') V A :=
  fun _ _ hc => pairs_pure ⟨hv, hc⟩

theorem Carries.bind {f f' : α → Grammar R β} {W : β → β → Prop}
    (hg : Carries r room n A g g' V B)
    (hf : ∀ v v', V v v' → Carries r room n B (f v) (f' v') W C) :
    Carries r room n A (g >>= f) (g' >>= f') W C :=
  fun c c' hc => (hg c c' hc).bind fun v v' d d' hv => hf v v' hv.1 d d' hv.2

theorem carries_ite {b : Prop} [Decidable b] (hg : Carries r room n A g g' V B)
    (hh : Carries r room n A h h' V B) :
    Carries r room n A (if b then g else h) (if b then g' else h') V B := by
  split
  · exact hg
  · exact hh

theorem Carries.bracketed (hg : Carries r room (n + 1) A g g' V B) :
    Carries r room n A (Grammar.bracketed g) (Grammar.bracketed g') V B :=
  fun c c' hc => (hg c c' hc).bracketed

theorem Carries.rewindIf {forget : α → Bool} (hg : Carries r room n A g g' V A)
    (hforget : ∀ v v', V v v' → forget v' = forget v) :
    Carries r room n A (Grammar.rewindIf forget g) (Grammar.rewindIf forget g') V A := by
  refine fun c c' hc => Pairs.rewindIf ((hg c c' hc).mono fun v v' d d' hv => ⟨hv.1, ?_⟩)
  rw [hforget v v' hv.1]
  split
  · exact hc
  · exact hv.2

/-- What is found in one run is the image of what is found in the other one. -/
theorem Carries.optional {F : α → α} {g g' : Grammar R (Option α)}
    (hg : Carries r room n A g g' (fun v v' => v' = v.map F) A) :
    Carries r room n A (Grammar.optional g) (Grammar.optional g') (fun v v' => v' = v.map F) A :=
  Carries.rewindIf hg fun v v' hv => by rw [hv, Option.isNone_map]

theorem Carries.iterate {turn turn' : σ → Grammar R (Next σ)} {x x' : σ} {V : σ → σ → Prop}
    (hturn : TurnsAdvance room turn) (hturn' : TurnsAdvance room turn') (hx : V x x')
    (h : ∀ y y', V y y' → Carries r room n A (turn y) (turn' y') (Next.Rel V) A) :
    Carries r room n A (Grammar.iterate turn x) (Grammar.iterate turn' x') V A := by
  intro c c' hc
  refine Pairs.loop (I := fun y y' d d' => V y y' ∧ A d d') hturn hturn' ⟨hx, hc⟩ ?_
  rintro y y' d d' ⟨hy, hd⟩
  refine (h y y' hy d d' hd).mono ?_
  rintro (z | z) (z' | z') e e' ⟨hz, he⟩
  · exact ⟨hz, he⟩
  · exact hz
  · exact hz
  · exact ⟨hz, he⟩

end Carries

end Grammar

end GDScript
