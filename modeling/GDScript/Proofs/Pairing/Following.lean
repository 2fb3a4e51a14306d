import GDScript.Proofs.Pairing.Grammar
import GDScript.Proofs.Staying

/-!
# What becomes of a run where another one finds something

Where the second one of two texts goes on behind the first one, the two runs need not go alike. What is
left to say is what the first run does when the second one finds something, as long as that does not end
too far on (`Outcome.Follows`): where the second run ends with `E`, nothing is said. Alternatives are
tried in the same order, so where the second run goes back from one of them, the first run has to do so
as well; this is said when `strict` holds. An alternative that the first run cannot take, since its text
ends before, falls short (`Outcome.FallsShort`).
-/

namespace GDScript

/-- What holds of a cursor still holds further on. -/
def Cursor.Lasts (E : Cursor → Prop) : Prop := ∀ d e : Cursor, E d → d.Reaches e → E e

namespace Outcome

variable {α : Type} {place : Location → Location → Prop} {strict : Prop} {E : Cursor → Prop}
  {Q : α → α → Cursor → Cursor → Prop} {o o' : Outcome α}

/-- A failure that an alternative recovers from. -/
def IsRecovered (o : Outcome α) : Prop :=
  ∃ failure j, o = .failed failure j ∧ failure.recoverable? ≠ none

/--
The first run fails. An alternative recovers from that, unless none recovers from what the second run
fails with, and if the second one finds something it ends with `E`.
-/
inductive FallsShort (E : Cursor → Prop) : Outcome α → Outcome α → Prop where
  | short {o o' : Outcome α} (h : o.IsRecovered) (hends : ∀ v d j, o' = .finished v d j → E d) :
    FallsShort E o o'
  | failed {failure failure' : Failure} {j j' : Journal} (h : failure'.recoverable? = none) :
    FallsShort E (.failed failure j) (.failed failure' j')

/--
What the second run finds, the first one finds as well, unless the second one ends with `E`; and when
`strict` holds, an alternative recovers from both runs or from none.
-/
structure Follows (strict : Prop) (E : Cursor → Prop) (Q : α → α → Cursor → Cursor → Prop)
    (o o' : Outcome α) : Prop where
  finished {v' : α} {d' : Cursor} {j' : Journal} (h : o' = .finished v' d' j') :
    E d' ∨ ∃ v d j, o = .finished v d j ∧ Q v v' d d'
  recovered (hstrict : strict) (h : o'.IsRecovered) : o.IsRecovered

theorem not_isRecovered_finished {v : α} {d : Cursor} {j : Journal} :
    ¬(Outcome.finished v d j).IsRecovered := by
  rintro ⟨failure, i, h, -⟩
  cases h

theorem isRecovered_failed {failure : Failure} {j : Journal} :
    (Outcome.failed failure j : Outcome α).IsRecovered ↔ failure.recoverable? ≠ none := by
  constructor
  · rintro ⟨_, _, h, hrec⟩
    cases h
    exact hrec
  · exact fun h => ⟨failure, j, rfl, h⟩

theorem FallsShort.follows (h : FallsShort E o o') : Follows strict E Q o o' where
  finished ho' := by
    cases h with
    | short _ hends => exact .inl (hends _ _ _ ho')
    | failed => cases ho'
  recovered _ ho' := by
    cases h with
    | short h => exact h
    | failed hnone => exact absurd hnone (isRecovered_failed.mp ho')

theorem Follows.mono {E' : Cursor → Prop} {Q' : α → α → Cursor → Cursor → Prop}
    (h : Follows strict E Q o o') (hE : ∀ d, E d → E' d)
    (hQ : ∀ v v' d d', Q v v' d d' → Q' v v' d d') : Follows strict E' Q' o o' where
  finished ho' := by
    refine (h.finished ho').imp (hE _) ?_
    rintro ⟨v, d, j, ho, hv⟩
    exact ⟨v, d, j, ho, hQ _ _ _ _ hv⟩
  recovered := h.recovered

theorem Pairs.recoverable?_eq {e e' : ParseError} (h : (Reports.loose place).error e e') :
    (Failure.parse e).recoverable? = none ↔ (Failure.parse e').recoverable? = none := by
  have hsame : e.recoverable = e'.recoverable := h
  rw [Failure.recoverable?, Failure.recoverable?, hsame]
  split <;> simp

theorem Pairs.follows {P : α → α → Cursor → Cursor → Prop} (h : Pairs (.loose place) P o o')
    (hP : ∀ v v' d d', P v v' d d' → Q v v' d d' ∨ E d') : Follows strict E Q o o' where
  finished ho' := by
    cases h with
    | finished hv =>
      cases ho'
      exact (hP _ _ _ _ hv).symm.imp_right fun hQ => ⟨_, _, _, rfl, hQ⟩
    | failed => cases ho'
  recovered _ ho' := by
    cases h with
    | finished => exact absurd ho' not_isRecovered_finished
    | failed he =>
      rw [isRecovered_failed] at ho' ⊢
      exact mt (Pairs.recoverable?_eq he).mp ho'

theorem fails_fallsShort : (Reports.loose place).Fails (FallsShort E : Outcome α → Outcome α → Prop) := by
  intro e e' j j' he _
  by_cases hnone : (Failure.parse e').recoverable? = none
  · exact .failed hnone
  · refine .short (isRecovered_failed.mpr (mt (Pairs.recoverable?_eq he).mp hnone)) ?_
    rintro _ _ _ h
    cases h

theorem fails_follows : (Reports.loose place).Fails (Follows strict E Q) :=
  fun e e' j j' he hj => (fails_fallsShort e e' j j' he hj).follows

end Outcome

namespace Grammar

variable {R : Type → Type} [RuleSet R] {α β σ : Type} {place : Location → Location → Prop}
  {room n : Nat} {c c' : Cursor} {strict : Prop} {E : Cursor → Prop}

/-- The second run follows the first one. -/
abbrev Follows (place : Location → Location → Prop) (room n : Nat) (strict : Prop)
    (E : Cursor → Prop) (g g' : Grammar R α) (c c' : Cursor)
    (Q : α → α → Cursor → Cursor → Prop) : Prop :=
  Relates (.loose place) room n (Outcome.Follows strict E Q) g g' c c'

/-- The first run falls short of the second one. -/
abbrev FallsShort (place : Location → Location → Prop) (room n : Nat) (E : Cursor → Prop)
    (g g' : Grammar R α) (c c' : Cursor) : Prop :=
  Relates (.loose place) room n (Outcome.FallsShort E) g g' c c'

/-! ### Alternatives -/

section

variable {g h : Grammar R α} {s : Scope} {j : Journal}

/-- A run that no alternative recovers from is that of the alternatives. -/
theorem run_orElse_of_not_isRecovered (hg : ¬(run room g s c j).IsRecovered) :
    run room (Grammar.orElse g h) s c j = run room g s c j := by
  rw [run_orElse, Parser.orElse]
  cases ho : run room g s c j with
  | finished v d i => rfl
  | failed failure i =>
    rw [ho, Outcome.isRecovered_failed, not_not] at hg
    simp only [hg]

/-- Otherwise the run of the second alternative is, or an alternative recovers from both. -/
theorem exists_run_orElse (hg : (run room g s c j).IsRecovered) :
    ∃ i, ((run room h s c i).IsRecovered ∧ (run room (Grammar.orElse g h) s c j).IsRecovered) ∨
      (¬(run room h s c i).IsRecovered ∧
        run room (Grammar.orElse g h) s c j = run room h s c i) := by
  obtain ⟨failure, i, hrun, hrec⟩ := hg
  obtain ⟨first, hfirst⟩ := Option.ne_none_iff_exists'.mp hrec
  refine ⟨i, ?_⟩
  rw [run_orElse, Parser.orElse]
  simp only [hrun, hfirst]
  cases run room h s c i with
  | finished v d k => exact .inr ⟨Outcome.not_isRecovered_finished, rfl⟩
  | failed failure' k =>
    -- if both alternatives fail and may be recovered from, so may the choice
    cases hsecond : failure'.recoverable? with
    | none =>
      refine .inr ⟨fun h => Outcome.isRecovered_failed.mp h hsecond, ?_⟩
      simp only [hsecond]
    | some second =>
      have hrecoverable : (Parser.further first second).recoverable = true := by
        rcases Parser.further_cases first second with h | h <;> rw [h]
        · exact (Failure.exists_of_recoverable? hfirst).2
        · exact (Failure.exists_of_recoverable? hsecond).2
      simp only [hsecond, Outcome.isRecovered_failed, Failure.recoverable?_parse hrecoverable]
      exact .inl ⟨Option.some_ne_none _, Option.some_ne_none _⟩

end

/-! ### Where runs end -/

section

variable {g h : Grammar R α}

theorem yields_of_lasts (hE : Cursor.Lasts E) (hc : E c) : Yields room g c fun _ d => E d :=
  (yields_reaches room g c).mono fun _ d hreach => hE c d hc hreach

/-- A run that goes alike with itself finds what that tells. -/
theorem Pairs.yieldsIn {Q : α → α → Cursor → Cursor → Prop} {P : α → Cursor → Prop}
    (hg : Pairs (.loose place) room n g g c c Q) (hQ : ∀ v v' d d', Q v v' d d' → P v d) :
    YieldsIn room n g c P := by
  intro s j v d j' hs hrun
  have hself := hg s s j j rfl hs trivial
  rw [hrun] at hself
  cases hself with
  | finished h => exact hQ _ _ _ _ h

end

/-! ### Falling short -/

section

variable {g g' : Grammar R α} {f f' : α → Grammar R β}

/-- Whatever the first run would have gone on with. -/
theorem FallsShort.bind (hE : Cursor.Lasts E) (hg : FallsShort place room n E g g' c c') :
    FallsShort place room n E (g >>= f) (g' >>= f') c c' := by
  intro s s' j j' hs hn hj
  have hrun := hg s s' j j' hs hn hj
  simp only [run_bind, Parser.bind]
  generalize run room g s c j = o, ho' : run room g' s' c' j' = o' at hrun ⊢
  cases hrun with
  | failed hnone => exact .failed hnone
  | short ho hends =>
    obtain ⟨failure, i, rfl, hrec⟩ := ho
    refine .short ⟨failure, i, rfl, hrec⟩ fun w e i' hfinished => ?_
    cases o' with
    | failed failure' i'' => cases hfinished
    | finished v d i'' =>
      exact hE d e (hends v d i'' rfl) (yields_reaches room (f' v) d s' i'' w e i' hfinished)

/-- The first run refuses the text, and the second one ends with `E`. -/
theorem Refuses.fallsShort (hg : Refuses room n g c.ahead)
    (hg' : Yields room g' c' fun _ d => E d) : FallsShort place room n E g g' c c' := by
  intro s s' j j' hs hn hj
  obtain ⟨e, i, hrun, hrec⟩ := hg s c j hn rfl
  refine .short ⟨_, i, hrun, ?_⟩ fun v d i' hrun' => hg' s' j' v d i' hrun'
  rw [Failure.recoverable?_parse hrec]
  exact Option.some_ne_none e

end

/-! ### Following -/

section

variable {g g' h h' : Grammar R α} {P Q : α → α → Cursor → Cursor → Prop}

theorem Pairs.follows (hg : Pairs (.loose place) room n g g' c c' P)
    (hP : ∀ v v' d d', P v v' d d' → Q v v' d d' ∨ E d') :
    Follows place room n strict E g g' c c' Q :=
  fun s s' j j' hs hn hj => (hg s s' j j' hs hn hj).follows hP

theorem FallsShort.follows (hg : FallsShort place room n E g g' c c') :
    Follows place room n strict E g g' c c' Q :=
  fun s s' j j' hs hn hj => (hg s s' j j' hs hn hj).follows

theorem Follows.mono {E' : Cursor → Prop} (hg : Follows place room n strict E g g' c c' P)
    (hE : ∀ d, E d → E' d) (hPQ : ∀ v v' d d', P v v' d d' → Q v v' d d') :
    Follows place room n strict E' g g' c c' Q :=
  fun s s' j j' hs hn hj => (hg s s' j j' hs hn hj).mono hE hPQ

theorem follows_of_yieldsIn (hg' : YieldsIn room n g' c' fun _ d => E d) :
    Follows place room n False E g g' c c' Q := by
  intro s s' j j' hs hn _
  have hnesting : s.nesting = s'.nesting := hs
  exact ⟨fun hrun => .inl (hg' s' j' _ _ _ (hnesting.symm.trans hn) hrun), False.elim⟩

/-- What a strict run goes on with behind `E` must not be gone back from. -/
theorem Follows.bind {f f' : α → Grammar R β} {S : β → β → Cursor → Cursor → Prop}
    (hg : Follows place room n strict E g g' c c' Q)
    (hf : ∀ v v' d d', Q v v' d d' → Follows place room n strict E (f v) (f' v') d d' S)
    (hE : ∀ v' d', E d' → Yields room (f' v') d' fun _ e' => E e')
    (hstays : strict → ∀ v' d', E d' → Stays room (f' v') d' fun _ _ => True) :
    Follows place room n strict E (g >>= f) (g' >>= f') c c' S := by
  intro s s' j j' hs hn hj
  have hrun := hg s s' j j' hs hn hj
  simp only [run_bind, Parser.bind]
  generalize run room g s c j = o, run room g' s' c' j' = o' at hrun ⊢
  cases o' with
  | failed failure' i' =>
    refine ⟨fun h => ?_, fun hstrict h => ?_⟩
    · cases h
    · obtain ⟨failure, i, rfl, hrec⟩ :=
        hrun.recovered hstrict (Outcome.isRecovered_failed.mpr (Outcome.isRecovered_failed.mp h))
      exact ⟨failure, i, rfl, hrec⟩
  | finished v' d' i' =>
    -- the second run has left the item already, or the first one has come to the same place
    rcases hrun.finished rfl with hd | ⟨v, d, i, rfl, hQ⟩
    · refine ⟨fun h => .inl (hE v' d' hd s' i' _ _ _ h), fun hstrict h => ?_⟩
      have hmeets := hstays hstrict v' d' hd i' s'
      obtain ⟨failure, i'', hfailed, -⟩ := h
      dsimp only at hfailed
      rw [hfailed] at hmeets
      exact hmeets.elim
    · exact hf v v' d d' hQ s s' i i' hs hn trivial

/-- Where the second run keeps to its first alternative, only that has to be followed. -/
theorem follows_orElse_of_not_isRecovered {s s' : Scope} {j j' : Journal} {strict' : Prop}
    (hg : Outcome.Follows strict' E Q (run room g s c j) (run room g' s' c' j'))
    (hnot : ¬(run room g' s' c' j').IsRecovered) :
    Outcome.Follows strict E Q (run room (Grammar.orElse g h) s c j)
      (run room (Grammar.orElse g' h') s' c' j') := by
  rw [run_orElse_of_not_isRecovered hnot]
  refine ⟨fun hfinished => (hg.finished hfinished).imp_right ?_, fun _ hrec => absurd hrec hnot⟩
  rintro ⟨v, d, i, hrun, hQ⟩
  refine ⟨v, d, i, ?_, hQ⟩
  rw [run_orElse_of_not_isRecovered, hrun]
  rw [hrun]
  exact Outcome.not_isRecovered_finished

/-- Where the second run goes back from its first alternative, the first run does. -/
theorem Follows.orElse (hg : Follows place room n True E g g' c c' Q)
    (hh : Follows place room n strict E h h' c c' Q) :
    Follows place room n strict E (Grammar.orElse g h) (Grammar.orElse g' h') c c' Q := by
  intro s s' j j' hs hn hj
  have hfirst := hg s s' j j' hs hn hj
  -- the choice of the second run tells which alternative of the first one it follows
  by_cases hrec' : (run room g' s' c' j').IsRecovered
  · obtain ⟨i, hi⟩ := exists_run_orElse (h := h) (hfirst.recovered trivial hrec')
    obtain ⟨i', hi'⟩ := exists_run_orElse (h := h') hrec'
    have hsecond := hh s s' i i' hs hn trivial
    refine ⟨fun hfinished => ?_, fun hstrict hrecovered => ?_⟩
    · rcases hi' with ⟨-, hboth⟩ | ⟨-, hrun'⟩
      · rw [hfinished] at hboth
        exact absurd hboth Outcome.not_isRecovered_finished
      · refine (hsecond.finished (hrun'.symm.trans hfinished)).imp_right ?_
        rintro ⟨v, d, k, hrun, hQ⟩
        rcases hi with ⟨hboth, -⟩ | ⟨-, hsame⟩
        · rw [hrun] at hboth
          exact absurd hboth Outcome.not_isRecovered_finished
        · exact ⟨v, d, k, hsame.trans hrun, hQ⟩
    · have hboth' : (run room h' s' c' i').IsRecovered := by
        rcases hi' with ⟨hboth, -⟩ | ⟨-, hrun'⟩
        · exact hboth
        · rwa [hrun'] at hrecovered
      have hboth := hsecond.recovered hstrict hboth'
      exact (hi.resolve_right fun hnot => hnot.1 hboth).2
  · exact follows_orElse_of_not_isRecovered hfirst hrec'

/-- If the other alternatives end with `E`, they need not be followed. -/
theorem Follows.orElse_of_yieldsIn (hg : Follows place room n False E g g' c c' Q)
    (hh : YieldsIn room n h' c' fun _ d => E d) :
    Follows place room n False E (Grammar.orElse g h) (Grammar.orElse g' h') c c' Q := by
  intro s s' j j' hs hn hj
  by_cases hrec' : (run room g' s' c' j').IsRecovered
  · refine ⟨fun hfinished => ?_, False.elim⟩
    obtain ⟨i', ⟨-, hboth⟩ | ⟨-, hrun'⟩⟩ := exists_run_orElse (h := h') hrec'
    · rw [hfinished] at hboth
      exact absurd hboth Outcome.not_isRecovered_finished
    · have hnesting : s.nesting = s'.nesting := hs
      exact .inl (hh s' i' _ _ _ (hnesting.symm.trans hn) (hrun'.symm.trans hfinished))
  · exact follows_orElse_of_not_isRecovered (hg s s' j j' hs hn hj) hrec'

theorem follows_choice {alternatives alternatives' : List (Grammar R α)} (hne : alternatives ≠ [])
    (h : List.Forall₂ (fun g g' => Follows place room n True E g g' c c' Q) alternatives
      alternatives') :
    Follows place room n True E (choice alternatives) (choice alternatives') c c' Q := by
  induction h with
  | nil => exact absurd rfl hne
  | @cons g g' rest rest' hg hrest ih =>
    cases hrest with
    | nil => exact hg
    | cons hnext hrest => exact hg.orElse (ih (List.cons_ne_nil _ _))

/-- Every turn of the second loop is followed, until it ends with `E`. -/
theorem Follows.loop {turn turn' : σ → Grammar R (Next σ)} {x x' : σ}
    {I Q : σ → σ → Cursor → Cursor → Prop} (hE : Cursor.Lasts E) (hturn : TurnsAdvance room turn)
    (hturn' : TurnsAdvance room turn') (hx : I x x' c c')
    (h : ∀ y y' d d', I y y' d d' →
      Follows place room n False E (turn y) (turn' y') d d' (Next.Pairs I Q)) :
    Follows place room n False E (iterate turn x) (iterate turn' x') c c' Q := by
  intro s s' j j' hs hn hj
  simp only [run_iterate, Parser.iterate]
  have hfuel : c.ahead.length < c.ahead.length + 1 := Nat.lt_succ_self _
  have hfuel' : c'.ahead.length < c'.ahead.length + 1 := Nat.lt_succ_self _
  -- the turns are counted from the start of each loop, so the induction is on any two numbers of them
  generalize c.ahead.length + 1 = k at hfuel
  generalize c'.ahead.length + 1 = k' at hfuel'
  induction k' generalizing k x x' c c' j j' with
  | zero => exact absurd hfuel' (Nat.not_lt_zero _)
  | succ k' ih =>
    obtain ⟨k, rfl⟩ := Nat.exists_eq_succ_of_ne_zero (Nat.ne_zero_of_lt hfuel)
    refine ⟨fun {z' e' k''} hfinished => ?_, False.elim⟩
    have hrun := h x x' c c' hx s s' j j' hs hn hj
    have hlt' := hturn' x' c' s' j'
    simp only [Parser.turns, Parser.bind] at hfinished
    generalize run room (turn' x') s' c' j' = o' at hrun hlt' hfinished
    cases o' with
    | failed failure' i' => cases hfinished
    | finished next' d' i' =>
      rcases hrun.finished rfl with hd | ⟨next, d, i, ho, hnext⟩
      · refine .inl (hE d' e' hd ?_)
        cases next' with
        | done y' =>
          cases hfinished
          exact .refl _
        | again y' =>
          have hlt : d'.ahead.length < c'.ahead.length := hlt' _ _ _ rfl
          dsimp only at hfinished
          rw [turns_eq hturn' (by omega) (Nat.lt_succ_self _)] at hfinished
          refine yields_reaches room (iterate turn' y') d' s' i' z' e' k'' ?_
          rw [run_iterate]
          exact hfinished
      · have hlt := hturn x c s j _ _ _ ho
        simp only [Parser.turns, Parser.bind, ho]
        cases next with
        | done y =>
          cases next' with
          | done y' =>
            cases hfinished
            exact .inr ⟨y, d, i, rfl, hnext⟩
          | again y' => exact False.elim hnext
        | again y =>
          cases next' with
          | done y' => exact False.elim hnext
          | again y' =>
            have hlt : d.ahead.length < c.ahead.length := hlt
            have hlt' : d'.ahead.length < c'.ahead.length := hlt' _ _ _ rfl
            exact (ih hnext i _ trivial k (by omega) (by omega)).finished hfinished

end

end Grammar

end GDScript
