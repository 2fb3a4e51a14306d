import GDScript.Grammar.Journal

/-!
# The failure that got furthest

`Journal.furthest` compares failures as they come. As long as the depth limit is not exceeded, what
it has kept in the end can be told from the journal alone (`Journal.IsFurthest`): no failure lies
behind it, and among those at its place it is the last one that was raised, or the first one that
was noted where none was raised. What has been kept is only ever replaced by a failure that lies no
less far (`Journal.Reaches.goesOn`).
-/

namespace GDScript

/-- The failure that an event adds to those that are compared. -/
def Event.failure? : Event → Option ParseError
  | .raised e | .noted e | .exceeded e => some e
  | .abandoned _ | .watched _ => none

namespace Journal

variable {journal old new : Journal} {event : Event} {e : ParseError} {n : Nat}

/-! ### Failures -/

/-- The failures that are compared, the last one first. -/
def failures (journal : Journal) : List ParseError := journal.filterMap Event.failure?

@[simp] theorem failures_nil : failures [] = [] := rfl

@[simp] theorem failures_raised : failures (.raised e :: journal) = e :: failures journal := rfl

@[simp] theorem failures_noted : failures (.noted e :: journal) = e :: failures journal := rfl

@[simp] theorem failures_exceeded : failures (.exceeded e :: journal) = e :: failures journal := rfl

@[simp] theorem failures_abandoned : failures (.abandoned e :: journal) = failures journal := rfl

@[simp] theorem failures_watched (w : Watched) :
    failures (.watched w :: journal) = failures journal := rfl

/-- What got furthest is one of the failures. -/
theorem mem_failures_of_furthest (h : furthest journal = some e) : e ∈ failures journal := by
  induction journal generalizing e with
  | nil => exact absurd h (by simp)
  | cons event journal ih =>
    rw [furthest_cons] at h
    cases event with
    | exceeded d =>
      obtain rfl := Option.some.inj h
      exact List.mem_cons_self
    | abandoned d => exact ih h
    | watched w => exact ih h
    | raised d | noted d =>
      cases hbest : furthest journal with
      | none =>
        rw [hbest] at h
        obtain rfl := Option.some.inj h
        exact List.mem_cons_self
      | some b =>
        -- the new failure is kept, or the one that was kept before it stays
        rw [hbest] at h
        obtain rfl := Option.some.inj h
        split
        · exact List.mem_cons_self
        · exact List.mem_cons_of_mem _ (ih hbest)

/-- Where nothing got furthest, there is no failure. -/
theorem failures_eq_nil_of_furthest (h : furthest journal = none) : failures journal = [] := by
  induction journal with
  | nil => rfl
  | cons event journal ih =>
    rw [furthest_cons] at h
    cases event with
    | exceeded d => exact absurd h (by simp [Event.furthest])
    | abandoned d => exact ih h
    | watched w => exact ih h
    | raised d | noted d =>
      cases hbest : furthest journal with
      | none | some b =>
        rw [hbest] at h
        exact absurd h (by simp [Event.furthest])

/-- A raised failure is compared. -/
theorem mem_failures_of_raised (h : .raised e ∈ journal) : e ∈ failures journal :=
  List.mem_filterMap.mpr ⟨_, h, rfl⟩

/-- A noted failure is compared. -/
theorem mem_failures_of_noted (h : .noted e ∈ journal) : e ∈ failures journal :=
  List.mem_filterMap.mpr ⟨_, h, rfl⟩

/-! ### How far a run got -/

/-- The failure that got furthest lies at the offset or behind it. -/
def Reaches (journal : Journal) (n : Nat) : Prop :=
  ∃ b, journal.furthest = some b ∧ n ≤ b.location.offset

/-- A run that got so far got less far as well. -/
theorem Reaches.of_le {m : Nat} (h : journal.Reaches n) (hle : m ≤ n) : journal.Reaches m := by
  obtain ⟨b, hb, hn⟩ := h
  exact ⟨b, hb, Nat.le_trans hle hn⟩

/-- Only an exceeded limit can replace a failure by one that lies less far. -/
theorem Reaches.cons (h : journal.Reaches n) (hevent : ∀ e, event ≠ .exceeded e) :
    Journal.Reaches (event :: journal) n := by
  obtain ⟨b, hb, hn⟩ := h
  -- a failure that is raised or noted replaces the kept one only from there on
  cases event with
  | exceeded e => exact absurd rfl (hevent e)
  | abandoned e => exact ⟨b, hb, hn⟩
  | watched w => exact ⟨b, hb, hn⟩
  | raised e =>
    refine ⟨_, by rw [furthest_cons, hb]; rfl, ?_⟩
    split <;> omega
  | noted e =>
    refine ⟨_, by rw [furthest_cons, hb]; rfl, ?_⟩
    split <;> omega

/-- A raised failure has been reached. -/
theorem reaches_raised (e : ParseError) (journal : Journal) :
    Journal.Reaches (.raised e :: journal) e.location.offset := by
  cases hb : furthest journal with
  | none => exact ⟨e, by rw [furthest_cons, hb]; rfl, Nat.le_refl _⟩
  | some b =>
    refine ⟨_, by rw [furthest_cons, hb]; rfl, ?_⟩
    split <;> omega

/-- A noted failure has been reached. -/
theorem reaches_noted (e : ParseError) (journal : Journal) :
    Journal.Reaches (.noted e :: journal) e.location.offset := by
  cases hb : furthest journal with
  | none => exact ⟨e, by rw [furthest_cons, hb]; rfl, Nat.le_refl _⟩
  | some b =>
    refine ⟨_, by rw [furthest_cons, hb]; rfl, ?_⟩
    split <;> omega

/-- The depth limit was not exceeded. -/
def WithinLimit (journal : Journal) : Prop := ∀ e, Event.exceeded e ∉ journal

theorem withinLimit_nil : WithinLimit [] := fun _ => List.not_mem_nil

/-- An event that is no exceeded limit keeps the limit. -/
theorem WithinLimit.cons (h : journal.WithinLimit) (hevent : ∀ e, event ≠ .exceeded e) :
    WithinLimit (event :: journal) := by
  intro e hmem
  rcases List.mem_cons.mp hmem with heq | hmem
  · exact hevent e heq.symm
  · exact h e hmem

/-- The limit was kept by the event and before it. -/
theorem WithinLimit.of_cons (h : WithinLimit (event :: journal)) :
    (∀ e, event ≠ .exceeded e) ∧ journal.WithinLimit :=
  ⟨fun e heq => h e (heq ▸ List.mem_cons_self), fun e hmem => h e (List.mem_cons_of_mem _ hmem)⟩

theorem WithinLimit.append (h : new.WithinLimit) (h' : old.WithinLimit) :
    WithinLimit (new ++ old) :=
  fun e hmem => (List.mem_append.mp hmem).elim (h e) (h' e)

/-- The second journal goes on from the first one, without exceeding the depth limit. -/
def GoesOn (old journal : Journal) : Prop := ∃ new, journal = new ++ old ∧ WithinLimit new

theorem GoesOn.refl (journal : Journal) : journal.GoesOn journal := ⟨[], rfl, withinLimit_nil⟩

/-- A journal goes on from one that goes on. -/
theorem GoesOn.trans {middle : Journal} (h : old.GoesOn middle) (h' : middle.GoesOn journal) :
    old.GoesOn journal := by
  obtain ⟨new, rfl, hnew⟩ := h
  obtain ⟨newer, rfl, hnewer⟩ := h'
  exact ⟨newer ++ new, (List.append_assoc newer new old).symm, hnewer.append hnew⟩

/-- One event more goes on, if it is no exceeded limit. -/
theorem GoesOn.cons (h : old.GoesOn journal) (hevent : ∀ e, event ≠ .exceeded e) :
    old.GoesOn (event :: journal) := by
  obtain ⟨new, rfl, hnew⟩ := h
  exact ⟨event :: new, rfl, hnew.cons hevent⟩

/-- How far a run got never gets less, up to where it exceeds the depth limit. -/
theorem Reaches.goesOn (h : old.Reaches n) (hgo : old.GoesOn journal) : journal.Reaches n := by
  obtain ⟨new, rfl, hnew⟩ := hgo
  induction new with
  | nil => exact h
  | cons event new ih =>
    obtain ⟨hevent, hnew⟩ := hnew.of_cons
    exact (ih hnew).cons hevent

/-! ### Which failure is kept -/

/-- The failure was raised, and after it none was raised at its place. -/
def IsLastRaised (journal : Journal) (e : ParseError) : Prop :=
  ∃ newer older, journal = newer ++ .raised e :: older ∧
    ∀ d, .raised d ∈ newer → d.location.offset ≠ e.location.offset

/-- No failure was raised at its place, and the failure is the first one that was noted there. -/
def IsFirstNoted (journal : Journal) (e : ParseError) : Prop :=
  (∀ d, .raised d ∈ journal → d.location.offset ≠ e.location.offset) ∧
    ∃ newer older, journal = newer ++ .noted e :: older ∧
      ∀ d, .noted d ∈ older → d.location.offset ≠ e.location.offset

/-- No failure lies behind this one, and it is the one that counts among those at its place. -/
structure IsFurthest (journal : Journal) (e : ParseError) : Prop where
  /-- No failure was raised or noted behind it. -/
  greatest : ∀ d, .raised d ∈ journal ∨ .noted d ∈ journal →
    d.location.offset ≤ e.location.offset
  /-- It is the last one that was raised at its place, or the first one that was noted there. -/
  chosen : journal.IsLastRaised e ∨ journal.IsFirstNoted e

/-- The last one raised at a place stays it until another one is raised there. -/
theorem IsLastRaised.cons (h : journal.IsLastRaised e)
    (hevent : ∀ d, event = .raised d → d.location.offset ≠ e.location.offset) :
    IsLastRaised (event :: journal) e := by
  obtain ⟨newer, older, rfl, hnewer⟩ := h
  refine ⟨event :: newer, older, rfl, fun d hd => ?_⟩
  rcases List.mem_cons.mp hd with heq | hd
  · exact hevent d heq.symm
  · exact hnewer d hd

/-- The first one noted at a place stays it until one is raised there. -/
theorem IsFirstNoted.cons (h : journal.IsFirstNoted e)
    (hevent : ∀ d, event = .raised d → d.location.offset ≠ e.location.offset) :
    IsFirstNoted (event :: journal) e := by
  obtain ⟨hraised, newer, older, rfl, holder⟩ := h
  refine ⟨fun d hd => ?_, event :: newer, older, rfl, holder⟩
  rcases List.mem_cons.mp hd with heq | hd
  · exact hevent d heq.symm
  · exact hraised d hd

/-- An event that is no failure behind the kept one, and none raised at its place, changes nothing. -/
theorem IsFurthest.cons (h : journal.IsFurthest e)
    (hraised : ∀ d, event = .raised d → d.location.offset < e.location.offset)
    (hnoted : ∀ d, event = .noted d → d.location.offset ≤ e.location.offset) :
    IsFurthest (event :: journal) e := by
  refine ⟨fun d hd => ?_, ?_⟩
  · rcases hd with hd | hd <;> rcases List.mem_cons.mp hd with heq | hd
    · exact Nat.le_of_lt (hraised d heq.symm)
    · exact h.greatest d (.inl hd)
    · exact hnoted d heq.symm
    · exact h.greatest d (.inr hd)
  · -- what is raised elsewhere does not change which one counts here
    have hother : ∀ d, event = .raised d → d.location.offset ≠ e.location.offset :=
      fun d hd => Nat.ne_of_lt (hraised d hd)
    exact h.chosen.imp (·.cons hother) (·.cons hother)

/-- A raised failure counts before all that lie no further. -/
theorem isFurthest_raised
    (h : ∀ d, .raised d ∈ journal ∨ .noted d ∈ journal → d.location.offset ≤ e.location.offset) :
    IsFurthest (.raised e :: journal) e := by
  refine ⟨fun d hd => ?_, .inl ⟨[], journal, rfl, fun d hd => absurd hd List.not_mem_nil⟩⟩
  rcases hd with hd | hd <;> rcases List.mem_cons.mp hd with heq | hd
  · obtain rfl := Event.raised.inj heq
    exact Nat.le_refl _
  · exact h d (.inl hd)
  · exact absurd heq (by simp)
  · exact h d (.inr hd)

/-- A noted failure counts before all that lie less far. -/
theorem isFurthest_noted
    (h : ∀ d, .raised d ∈ journal ∨ .noted d ∈ journal → d.location.offset < e.location.offset) :
    IsFurthest (.noted e :: journal) e := by
  refine ⟨fun d hd => ?_, .inr ⟨fun d hd => ?_, [], journal, rfl, fun d hd => ?_⟩⟩
  · rcases hd with hd | hd <;> rcases List.mem_cons.mp hd with heq | hd
    · exact absurd heq (by simp)
    · exact Nat.le_of_lt (h d (.inl hd))
    · obtain rfl := Event.noted.inj heq
      exact Nat.le_refl _
    · exact Nat.le_of_lt (h d (.inr hd))
  · rcases List.mem_cons.mp hd with heq | hd
    · exact absurd heq (by simp)
    · exact Nat.ne_of_lt (h d (.inl hd))
  · exact Nat.ne_of_lt (h d (.inr hd))

/-- A raised failure replaces the kept one where it lies no less far. -/
theorem IsFurthest.raised {b d : ParseError} (h : journal.IsFurthest b) :
    IsFurthest (.raised d :: journal)
      (if b.location.offset ≤ d.location.offset then d else b) := by
  split
  · next hle => exact isFurthest_raised fun d' hd' => Nat.le_trans (h.greatest d' hd') hle
  · next hlt =>
    refine h.cons (fun d' hd' => ?_) (by simp)
    rw [← Event.raised.inj hd']
    omega

/-- A noted failure replaces the kept one only where it lies further: the first one stays. -/
theorem IsFurthest.noted {b d : ParseError} (h : journal.IsFurthest b) :
    IsFurthest (.noted d :: journal)
      (if b.location.offset < d.location.offset then d else b) := by
  split
  · next hlt => exact isFurthest_noted fun d' hd' => Nat.lt_of_le_of_lt (h.greatest d' hd') hlt
  · next hle =>
    refine h.cons (by simp) fun d' hd' => ?_
    rw [← Event.noted.inj hd']
    omega

/-- Before the first failure nothing was raised or noted. -/
theorem not_mem_of_furthest_eq_none (h : furthest journal = none) (d : ParseError) :
    ¬(.raised d ∈ journal ∨ .noted d ∈ journal) := by
  intro hd
  have hmem := hd.elim mem_failures_of_raised mem_failures_of_noted
  rw [failures_eq_nil_of_furthest h] at hmem
  exact List.not_mem_nil hmem

/-- What is kept while the depth limit is not exceeded. -/
theorem isFurthest_of_furthest (h : furthest journal = some e) (hlimit : journal.WithinLimit) :
    journal.IsFurthest e := by
  induction journal generalizing e with
  | nil => exact absurd h (by simp)
  | cons event journal ih =>
    obtain ⟨hevent, hbefore⟩ := hlimit.of_cons
    rw [furthest_cons] at h
    -- the event decides only against the failure that was kept before it, if there was one
    cases event with
    | exceeded d => exact absurd rfl (hevent d)
    | abandoned d => exact (ih h hbefore).cons (by simp) (by simp)
    | watched w => exact (ih h hbefore).cons (by simp) (by simp)
    | raised d =>
      cases hbest : furthest journal with
      | none =>
        rw [hbest] at h
        obtain rfl := Option.some.inj h
        exact isFurthest_raised fun d' hd' => (not_mem_of_furthest_eq_none hbest d' hd').elim
      | some b =>
        rw [hbest] at h
        obtain rfl := Option.some.inj h
        exact (ih hbest hbefore).raised
    | noted d =>
      cases hbest : furthest journal with
      | none =>
        rw [hbest] at h
        obtain rfl := Option.some.inj h
        exact isFurthest_noted fun d' hd' => (not_mem_of_furthest_eq_none hbest d' hd').elim
      | some b =>
        rw [hbest] at h
        obtain rfl := Option.some.inj h
        exact (ih hbest hbefore).noted

end Journal

end GDScript
