import GDScript.Proofs.Leading

/-!
# What a run leaves in its journal

`Failure.Tracks` says how the failure of a run goes together with where the run started and with its
journal: a failure that can be recovered from lies at the start of the run or behind it, and the run
got as far as that failure; a failure that cannot be recovered from is the one that the journal has
kept. A run that finishes only goes on with the journal. Every constructor of `Grammar` preserves
this, so it holds of all runs (`Grammar.leads_tracks`).
-/

namespace GDScript

/-- How the failure of a run from the cursor, with the journal so far, goes with the journal. -/
inductive Failure.Tracks (c : Cursor) (journal : Journal) : Failure → Journal → Prop where
  | refused {e : ParseError} {journal' : Journal} (he : e.recoverable = true)
      (hj : journal.GoesOn journal') (hle : c.location.offset ≤ e.location.offset)
      (hreach : journal'.Reaches e.location.offset) : Tracks c journal (.parse e) journal'
  | ended {failure : Failure} {journal' : Journal} (h : failure.recoverable? = none)
      (hfurthest : ∀ e, failure = .parse e → journal'.furthest = some e) :
      Tracks c journal failure journal'

namespace Failure.Tracks

variable {c c' : Cursor} {journal journal' journal'' : Journal} {failure : Failure} {e : ParseError}

/-- The second part of a run, seen from the start of the first one. -/
theorem after (h : failure.Tracks c' journal' journal'') (hc : c.Reaches c')
    (hj : journal.GoesOn journal') : failure.Tracks c journal journal'' := by
  cases h with
  | refused he hj' hle hreach =>
    exact .refused he (hj.trans hj') (Nat.le_trans hc.offset_le hle) hreach
  | ended hrec hfurthest => exact .ended hrec hfurthest

theorem refused_inv (h : (Failure.parse e).Tracks c journal journal') (he : e.recoverable = true) :
    journal.GoesOn journal' ∧ c.location.offset ≤ e.location.offset ∧
      journal'.Reaches e.location.offset := by
  cases h with
  | refused _ hj hle hreach => exact ⟨hj, hle, hreach⟩
  | ended hnone => exact absurd ((recoverable?_parse he).symm.trans hnone) (by simp)

/-- A failure that can be recovered from is as good with a journal that goes on. -/
theorem goesOn (h : (Failure.parse e).Tracks c journal journal') (he : e.recoverable = true)
    (hj : journal'.GoesOn journal'') : (Failure.parse e).Tracks c journal journal'' := by
  obtain ⟨hj', hle, hreach⟩ := h.refused_inv he
  exact .refused he (hj'.trans hj) hle (hreach.goesOn hj)

theorem watched (h : failure.Tracks c journal journal') (w : Watched) :
    failure.Tracks c journal (.watched w :: journal') := by
  cases h with
  | refused he hj hle hreach => exact .refused he (hj.cons (by simp)) hle (hreach.cons (by simp))
  | ended hrec hfurthest => exact .ended hrec hfurthest

end Failure.Tracks

namespace Grammar

variable {R : Type → Type} [RuleSet R] {α : Type}

/-- A run of the grammar goes forward and goes on with the journal, or fails as it should. -/
def Tracks (room : Nat) (g : Grammar R α) : Prop :=
  ∀ c journal, Leads room g c journal (fun _ c' journal' => c.Reaches c' ∧ journal.GoesOn journal')
    (Failure.Tracks c journal)

/-- What a grammar leaves that goes on where another one has finished. -/
theorem Tracks.after {room : Nat} {g : Grammar R α} (h : Tracks room g) {c c' : Cursor}
    {journal journal' : Journal} (hc : c.Reaches c') (hj : journal.GoesOn journal') :
    Leads room g c' journal'
      (fun _ c'' journal'' => c.Reaches c'' ∧ journal.GoesOn journal'') (Failure.Tracks c journal) :=
  (h c' journal').mono (fun _ _ _ hfinished => ⟨hc.trans hfinished.1, hj.trans hfinished.2⟩)
    fun _ _ hfailed => hfailed.after hc hj

/-! ### One lemma for each way to build a grammar -/

section

variable {room : Nat} {σ : Type}

theorem tracks_read (reader : Reader α) : Tracks (R := R) room (.read reader) := by
  refine fun c journal => leads_read (fun _ n _ => ⟨c.reaches_advanceBy n, .refl journal⟩)
    fun complaint scope _ => .refused rfl ((Journal.GoesOn.refl journal).cons (by simp)) ?_
      (Journal.reaches_raised _ journal)
  exact (c.reaches_advanceBy complaint.distance).offset_le

theorem Tracks.attempt {g : Grammar R α} (h : Tracks room g) : Tracks room (.attempt g) := by
  refine fun c journal => (h c journal).attempt (fun e journal' he htracks => ?_)
    fun _ _ _ htracks => htracks
  exact ⟨.refl c, (htracks.refused_inv he).1.cons (by simp)⟩

/-- The second alternative goes on with the journal of the first one, whose failure it keeps in
mind. -/
theorem Tracks.orElse {g h : Grammar R α} (hg : Tracks room g) (hh : Tracks room h) :
    Tracks room (.orElse g h) := by
  refine fun c journal => (hg c journal).orElse fun first journal' he htracks => ?_
  have hgoes := (htracks.refused_inv he).1
  refine (hh c journal').mono (fun _ _ _ hv => ⟨hv.1, hgoes.trans hv.2⟩)
    fun failure journal'' htracks' => ⟨htracks'.after (.refl c) hgoes, fun hrec => ?_⟩
  -- where both fail, the one that got further is reported, and the journal has reached either
  cases htracks' with
  | refused _ hj => exact htracks.goesOn he hj
  | ended hnone => exact absurd hnone hrec

theorem Tracks.rewindIf {forget : α → Bool} {g : Grammar R α} (h : Tracks room g) :
    Tracks room (.rewindIf forget g) := by
  refine fun c journal => Leads.rewindIf ((h c journal).mono (fun v c' journal' hv => ?_)
    fun _ _ htracks => htracks)
  split
  · exact ⟨.refl c, hv.2⟩
  · exact hv

/-- The turns of a loop go forward one after the other. -/
theorem Tracks.iterate {turn : σ → Grammar R (Next σ)} (h : ∀ x, Tracks room (turn x)) (x : σ) :
    Tracks room (.iterate turn x) := by
  intro c journal
  refine Leads.loop (I := fun _ c' journal' => c.Reaches c' ∧ journal.GoesOn journal')
    ⟨.refl c, .refl journal⟩ (fun _ _ _ hy => hy) fun y c' journal' hy => ?_
  refine ((h y).after hy.1 hy.2).mono (fun next _ _ hnext => ?_) fun _ _ htracks => htracks
  cases next <;> exact hnext

/-- What is blamed has been kept by the journal already. -/
theorem Tracks.blame {g : Grammar R α} (h : Tracks room g) : Tracks room (.blame g) := by
  refine fun c journal => Leads.blame (fun e hbest hle => ?_) fun _ => h c journal
  cases he : e.recoverable with
  | true => exact .refused he (.refl journal) hle ⟨e, hbest, Nat.le_refl _⟩
  | false =>
    refine .ended (by rw [Failure.recoverable?, he, if_neg Bool.false_ne_true]) fun d hd => ?_
    rw [hbest, Failure.parse.inj hd]

end

/-- A run leaves its journal in order, if the rules do that it enters. -/
theorem tracks_of_entry (room : Nat)
    (h : ∀ (β : Type) (label : Text) (g : Grammar R β) (scope : Scope) (c : Cursor)
      (journal : Journal), (entry room β label g scope c journal).Meets
        (fun _ c' journal' => c.Reaches c' ∧ journal.GoesOn journal') (Failure.Tracks c journal))
    (g : Grammar R α) : Tracks room g := by
  induction g with
  | pure v => exact fun c journal => leads_pure ⟨.refl c, .refl journal⟩
  | bind _ _ ih ihf =>
    exact fun c journal => (ih c journal).bind fun v c' journal' hv => (ihf v).after hv.1 hv.2
  | read reader => exact tracks_read reader
  | note complaint =>
    exact fun c journal => leads_note fun _ =>
      ⟨.refl c, (Journal.GoesOn.refl journal).cons (by simp)⟩
  | here => exact fun c journal => leads_here ⟨.refl c, .refl journal⟩
  | nesting => exact fun c journal => leads_nesting fun _ => ⟨.refl c, .refl journal⟩
  | abort defect =>
    refine fun c journal => leads_abort ?_
    cases defect <;> exact .ended rfl fun e he => absurd he (by simp [Defect.failure])
  | call rule =>
    -- rules and labels are entered, of which the hypothesis speaks
    intro c journal scope
    rw [run_eq_runWith]
    exact h _ _ _ scope c journal
  | within label g =>
    intro c journal scope
    rw [run_eq_runWith]
    exact h _ label g scope c journal
  | bracketed g ih => exact fun c journal => (ih c journal).bracketed
  | attempt g ih => exact ih.attempt
  | orElse g h ih ih' => exact ih.orElse ih'
  | rewindIf forget g ih => exact ih.rewindIf
  | iterate turn x ih => exact Tracks.iterate ih x
  | blame g ih => exact ih.blame
  | watch step g ih =>
    exact fun c journal => Leads.watch ((ih c journal).mono
      (fun _ _ _ hv w => ⟨hv.1, hv.2.cons (by simp)⟩) fun _ _ htracks w => htracks.watched w)

/-- Every run goes forward and leaves its journal in order. -/
theorem leads_tracks (room : Nat) (g : Grammar R α) : Tracks room g := by
  induction room generalizing α g with
  | zero =>
    -- without room nothing is entered; the failure says so, and nothing recovers from it
    refine tracks_of_entry 0 (fun β label g scope c journal => Failure.Tracks.ended rfl fun e he => ?_) g
    rw [← Failure.parse.inj he]
    rfl
  | succ room ih =>
    exact tracks_of_entry (room + 1) (fun β label g scope c journal => ih g c journal _) g

/-- A failure that can be recovered from leaves what got furthest at its place or behind it. -/
theorem reaches_of_run_eq_failed {room : Nat} {g : Grammar R α} {scope : Scope} {c : Cursor}
    {journal journal' : Journal} {e : ParseError}
    (h : run room g scope c journal = .failed (.parse e) journal') (he : e.recoverable = true) :
    c.location.offset ≤ e.location.offset ∧ journal'.Reaches e.location.offset := by
  have htracks := leads_tracks room g c journal scope
  rw [h] at htracks
  exact (Failure.Tracks.refused_inv htracks he).2

end Grammar

end GDScript
