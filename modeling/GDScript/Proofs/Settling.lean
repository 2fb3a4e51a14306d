import GDScript.Proofs.Staying
import GDScript.Proofs.Uses

/-!
# Runs that give something up

An attempt that gives up on a failure leaves an event in the journal and goes on
(`Journal.GaveUp`). Two judgements follow what becomes of it. `Grammar.Settles` starts where nothing
has been given up: if something is given up in the run, it finishes with `P`, and no alternative is
tried after a failure. `Grammar.Stays` is needed where something has been given up before: the run
finishes with `P`. In a sequence the first grammar settles, and then the second one settles or stays.
-/

namespace GDScript

/-- An attempt gave up on a failure. -/
def Event.isAbandoned : Event → Bool
  | .abandoned _ => true
  | _ => false

/-- An attempt has given up on a failure. -/
def Journal.GaveUp (journal : Journal) : Prop := ∃ e, .abandoned e ∈ journal

namespace Journal

variable {journal : Journal} {event : Event}

theorem any_isAbandoned : journal.any Event.isAbandoned = true ↔ journal.GaveUp := by
  rw [List.any_eq_true]
  constructor
  · rintro ⟨event, hmem, habandoned⟩
    cases event with
    | abandoned e => exact ⟨e, hmem⟩
    | _ => exact absurd habandoned (by simp [Event.isAbandoned])
  · rintro ⟨e, hmem⟩
    exact ⟨_, hmem, rfl⟩

instance (journal : Journal) : Decidable journal.GaveUp := decidable_of_iff _ any_isAbandoned

theorem not_gaveUp_nil : ¬GaveUp [] := fun ⟨_, h⟩ => List.not_mem_nil h

theorem not_gaveUp_cons (h : ¬journal.GaveUp) (hevent : ∀ e, event ≠ .abandoned e) :
    ¬GaveUp (event :: journal) := by
  rintro ⟨e, he⟩
  rcases List.mem_cons.mp he with heq | he
  · exact hevent e heq.symm
  · exact h ⟨e, he⟩

end Journal

/-- Where something has been given up, the failure is one that nothing recovers from. -/
def Failure.IsFinal (failure : Failure) (journal : Journal) : Prop :=
  journal.GaveUp → failure.recoverable? = none

theorem Failure.isFinal_of_not_gaveUp {failure : Failure} {journal : Journal}
    (h : ¬journal.GaveUp) : failure.IsFinal journal := fun hgave => absurd hgave h

theorem Failure.IsFinal.not_gaveUp {e : ParseError} {journal : Journal}
    (h : (Failure.parse e).IsFinal journal) (he : e.recoverable = true) : ¬journal.GaveUp := by
  intro hgave
  exact absurd ((recoverable?_parse he).symm.trans (h hgave)) (by simp)

namespace Grammar

variable {R : Type → Type} [RuleSet R] {α β σ : Type} {room : Nat} {c : Cursor}

/-- When something is given up in a run, it finishes with `P` or fails for good. -/
def Settles (room : Nat) (g : Grammar R α) (c : Cursor) (P : α → Cursor → Prop) : Prop :=
  ∀ journal : Journal, ¬journal.GaveUp →
    Leads room g c journal (fun v c' journal' => journal'.GaveUp → P v c') Failure.IsFinal

/-! ### Where nothing has been given up -/

theorem Settles.mono {g : Grammar R α} {P Q : α → Cursor → Prop} (h : Settles room g c P)
    (hPQ : ∀ v c', P v c' → Q v c') : Settles room g c Q :=
  fun journal hquiet => (h journal hquiet).mono (fun v c' _ hv hgave => hPQ v c' (hv hgave))
    fun _ _ hE => hE

theorem settles_pure {v : α} {P : α → Cursor → Prop} :
    Settles room (Pure.pure v : Grammar R α) c P :=
  fun _ hquiet => leads_pure fun hgave => absurd hgave hquiet

theorem settles_read {reader : Reader α} {P : α → Cursor → Prop} :
    Settles room (read reader : Grammar R α) c P :=
  fun _ hquiet => leads_read (fun _ _ _ hgave => absurd hgave hquiet) fun _ _ _ =>
    Failure.isFinal_of_not_gaveUp (Journal.not_gaveUp_cons hquiet (by simp))

/-- The second grammar settles, or stays where the first one has given something up. -/
theorem Settles.bind {g : Grammar R α} {f : α → Grammar R β} {P : α → Cursor → Prop}
    {Q : β → Cursor → Prop} (hg : Settles room g c P)
    (hf : ∀ v c', Settles room (f v) c' Q) (hstays : ∀ v c', P v c' → Stays room (f v) c' Q) :
    Settles room (g >>= f) c Q := by
  refine fun journal hquiet => (hg journal hquiet).bind fun v c' journal' hv => ?_
  -- what the second grammar may do depends on what the first one left in the journal
  by_cases hgave : journal'.GaveUp
  · exact (hstays v c' (hv hgave) journal').mono (fun _ _ _ hw _ => hw) fun _ _ hE => hE.elim
  · exact hf v c' journal' hgave

/-- Nothing is given up in the first grammar. -/
theorem Settles.bind_quiet {g : Grammar R α} {f : α → Grammar R β} {P : α → Cursor → Prop}
    {Q : β → Cursor → Prop} (hg : Settles room g c fun _ _ => False) (hP : Yields room g c P)
    (hf : ∀ v c', P v c' → Settles room (f v) c' Q) : Settles room (g >>= f) c Q :=
  fun journal hquiet => ((hg journal hquiet).and_yields hP).bind fun v c' journal' hv =>
    hf v c' hv.1 journal' hv.2

theorem Settles.bracketed {g : Grammar R α} {P : α → Cursor → Prop} (hg : Settles room g c P) :
    Settles room (bracketed g) c P :=
  fun journal hquiet => (hg journal hquiet).bracketed

/-- Where the second alternative is tried, the first one has given nothing up. -/
theorem Settles.orElse {g h : Grammar R α} {P : α → Cursor → Prop} (hg : Settles room g c P)
    (hh : Settles room h c P) : Settles room (orElse g h) c P := by
  refine fun journal hquiet => (hg journal hquiet).orElse fun first journal' he hfinal => ?_
  -- the first alternative failed in a way that can be recovered from, so it gave nothing up
  refine (hh journal' (hfinal.not_gaveUp he)).mono (fun _ _ _ hv => hv) fun failure journal'' hE =>
    ⟨hE, fun hrec hgave => absurd (hE hgave) hrec⟩

theorem settles_choice {alternatives : List (Grammar R α)} {P : α → Cursor → Prop}
    (hne : alternatives ≠ []) (h : ∀ g ∈ alternatives, Settles room g c P) :
    Settles room (choice alternatives) c P := by
  induction alternatives with
  | nil => exact absurd rfl hne
  | cons g rest ih =>
    cases rest with
    | nil => exact h g List.mem_cons_self
    | cons g' rest =>
      exact (h g List.mem_cons_self).orElse
        (ih (List.cons_ne_nil _ _) fun k hk => h k (List.mem_cons_of_mem g hk))

/-- Each turn settles, and stays where something has been given up in a turn before it. -/
theorem Settles.loop {turn : σ → Grammar R (Next σ)} {x : σ} {P : σ → Cursor → Prop}
    (h : ∀ y c', Settles room (turn y) c' fun next c'' => P next.state c'')
    (hstays : ∀ y c', P y c' → Stays room (turn y) c' fun next c'' => P next.state c'') :
    Settles room (iterate turn x) c P := by
  refine fun journal hquiet => Leads.loop (I := fun y c' journal' => journal'.GaveUp → P y c')
    (fun hgave => absurd hgave hquiet) (fun _ _ _ hy => hy) fun y c' journal' hy => ?_
  have hturn : Leads room (turn y) c' journal'
      (fun next c'' journal'' => journal''.GaveUp → P next.state c'') Failure.IsFinal := by
    by_cases hgave : journal'.GaveUp
    · exact (hstays y c' (hy hgave) journal').mono (fun _ _ _ hnext _ => hnext)
        fun _ _ hE => hE.elim
    · exact h y c' journal' hgave
  refine hturn.mono (fun next _ _ hnext => ?_) fun _ _ hE => hE
  cases next <;> exact hnext

/-- A grammar gives nothing up when the rules that it calls do not. -/
theorem Uses.settles {m : Means R} {g : Grammar R α} (h : Uses m g) (hretries : ¬m.retries)
    (hcalls : ∀ {β : Type} (rule : R β) c, m.calls rule →
      Settles room (call rule) c fun _ _ => False) : Settles room g c fun _ _ => False := by
  induction g generalizing c with
  | pure v => exact settles_pure
  | bind g f ih ihf => exact (ih h.1).bind (fun v c' => ihf v (h.2 v)) fun _ _ hP => hP.elim
  | read reader => exact settles_read
  | here => exact fun _ hquiet => leads_here fun hgave => absurd hgave hquiet
  | nesting => exact fun _ hquiet => leads_nesting fun _ hgave => absurd hgave hquiet
  | call rule => exact hcalls rule c h
  | bracketed g ih => exact (ih h).bracketed
  | orElse g k ih ih' => exact (ih h.1).orElse (ih' h.2)
  | rewindIf forget g ih =>
    exact fun journal hquiet => Leads.rewindIf ((ih h journal hquiet).mono
      (fun _ _ _ hv hgave => hv hgave) fun _ _ hE => hE)
  | iterate turn x ih =>
    exact Settles.loop (fun y c' => ih y (h y)) fun _ _ hP => hP.elim
  | note | abort => exact absurd h hretries
  | attempt | blame | watch => exact absurd h.1 hretries
  | within => exact h.elim

end Grammar

end GDScript
