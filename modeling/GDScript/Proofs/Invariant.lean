import GDScript.Proofs.Leading

/-!
# Invariants of runs

An `Invariant` says what holds of the scopes, the cursors and the journals of a run, and of the
failures that it ends with. Its laws are about single steps: a reader takes something or complains, an
alternative is tried, a rule is entered, the depth limit is exceeded. Every run of every grammar keeps
it (`Grammar.keeps`), since a run is made of such steps. The laws about steps inside one rule make a
`RuleInvariant`; what a rule and the rules around it have to do with each other may need another one
for every rule.
-/

namespace GDScript

/-- What holds all through a run, as long as it stays in one rule. -/
structure RuleInvariant where
  /-- What holds around a cursor, with room for so many further rules. -/
  scope : Nat → Scope → Prop
  cursor : Cursor → Prop
  journal : Journal → Prop
  /-- What holds when a run ends with the failure and leaves the journal. -/
  failure : Failure → Journal → Prop
  nest {room : Nat} {s : Scope} (hs : scope room s) :
    scope room { s with nesting := s.nesting + 1 }
  advance {c : Cursor} (hc : cursor c) (n : Nat) : cursor (c.advanceBy n)
  /-- A complaint is raised. -/
  raise {room : Nat} {s : Scope} {c : Cursor} {j : Journal} (complaint : Complaint)
    (hs : scope room s) (hc : cursor c) (hj : journal j) :
    let e := complaint.error (c.advanceBy complaint.distance).location s
    failure (.parse e) (.raised e :: j)
  /-- A complaint is noted. -/
  note {room : Nat} {s : Scope} {c : Cursor} {j : Journal} (complaint : Complaint)
    (hs : scope room s) (hc : cursor c) (hj : journal j) :
    journal (.noted (complaint.error (c.advanceBy complaint.distance).location s) :: j)
  abort {j : Journal} (defect : Defect) (hj : journal j) : failure defect.failure j
  /-- The run goes on after a failure. -/
  resume {e : ParseError} {j : Journal} (he : e.recoverable = true) (h : failure (.parse e) j) :
    journal j
  /-- A failure that the run went on after is raised in the end. -/
  raiseAgain {e : ParseError} {j j' : Journal} (he : e.recoverable = true) (h : failure (.parse e) j)
    (hj : journal j') : failure (.parse e) j'
  abandon {j : Journal} (e : ParseError) (hj : journal j) : journal (.abandoned e :: j)
  /-- What got furthest is raised again. -/
  blame {e : ParseError} {j : Journal} (hbest : j.furthest = some e) (hj : journal j) :
    failure (.parse e) j
  watch {j : Journal} (w : Watched) (hj : journal j) : journal (.watched w :: j)
  watch_failure {f : Failure} {j : Journal} (w : Watched) (h : failure f j) :
    failure f (.watched w :: j)

/-- What holds all through a run, whatever rules are entered. -/
structure Invariant extends RuleInvariant where
  enter {room : Nat} {s : Scope} {c : Cursor} (label : Text) (hs : scope (room + 1) s)
    (hc : cursor c) : scope room { s with frames := ⟨label, c.location⟩ :: s.frames }
  /-- There is no room for a further rule. -/
  exceed {s : Scope} {c : Cursor} {j : Journal} (hs : scope 0 s) (hc : cursor c)
    (hj : journal j) :
    failure (.parse (s.tooDeep c.location)) (.exceeded (s.tooDeep c.location) :: j)

namespace Parser

variable {x : RuleInvariant} {room : Nat} {α β σ : Type}

/-- Wherever the invariant holds, it holds when the parser ends. -/
def Keeps (x : RuleInvariant) (room : Nat) (p : Parser α) : Prop :=
  ∀ s c j, x.scope room s → x.cursor c → x.journal j →
    (p s c j).Meets (fun _ c' j' => x.cursor c' ∧ x.journal j') x.failure

/-- A parser that takes nothing keeps everything. -/
theorem keeps_pure (v : α) : Keeps x room (pure v) := fun _ _ _ _ hc hj => ⟨hc, hj⟩

/-- Two parsers behind one another keep what each of them keeps. -/
theorem Keeps.bind {p : Parser α} {f : α → Parser β} (hp : Keeps x room p)
    (hf : ∀ v, Keeps x room (f v)) : Keeps x room (bind p f) := by
  intro s c j hs hc hj
  have hmeets := hp s c j hs hc hj
  rw [Parser.bind]
  cases hrun : p s c j with
  | finished v c' j' =>
    rw [hrun] at hmeets
    exact hf v s c' j' hs hmeets.1 hmeets.2
  | failed failure j' =>
    rw [hrun] at hmeets
    exact hmeets

/-- A reader advances the cursor, or raises a complaint. -/
theorem keeps_read (reader : Reader α) : Keeps x room (read reader) := by
  intro s c j hs hc hj
  rw [read, Cursor.read]
  cases reader c.ahead with
  | took v n => exact ⟨x.advance hc n, hj⟩
  | fault complaint => exact x.raise complaint hs hc hj

/-- A noted complaint is added to the journal. -/
theorem keeps_note (complaint : Text → Complaint) : Keeps x room (note complaint) :=
  fun _ c _ hs hc hj => ⟨hc, x.note (complaint c.ahead) hs hc hj⟩

/-- The scope is nested, which the invariant allows. -/
theorem Keeps.bracketed {p : Parser α} (hp : Keeps x room p) : Keeps x room (bracketed p) :=
  fun _ c j hs hc hj => hp _ c j (x.nest hs) hc hj

/-- An attempt goes on after a failure, from where it started. -/
theorem Keeps.attempt {p : Parser α} (hp : Keeps x room p) : Keeps x room (attempt p) := by
  intro s c j hs hc hj
  have hmeets := hp s c j hs hc hj
  rw [Parser.attempt]
  cases hrun : p s c j with
  | finished v c' j' =>
    rw [hrun] at hmeets
    exact hmeets
  | failed failure j' =>
    rw [hrun] at hmeets
    cases hrec : failure.recoverable? with
    | none =>
      simp only [hrec]
      exact hmeets
    | some e =>
      obtain ⟨rfl, he⟩ := Failure.exists_of_recoverable? hrec
      simp only [hrec]
      -- the cursor is the one from before the attempt
      exact ⟨hc, x.abandon e (x.resume he hmeets)⟩

/-- The second alternative starts from the journal that the first one has left. -/
theorem Keeps.orElse {p q : Parser α} (hp : Keeps x room p) (hq : Keeps x room q) :
    Keeps x room (orElse p q) := by
  intro s c j hs hc hj
  have hfirst := hp s c j hs hc hj
  rw [Parser.orElse]
  cases hrun : p s c j with
  | finished v c' j' =>
    rw [hrun] at hfirst
    exact hfirst
  | failed failure j' =>
    rw [hrun] at hfirst
    cases hrec : failure.recoverable? with
    | none => simpa only [hrec] using hfirst
    | some first =>
      obtain ⟨rfl, he⟩ := Failure.exists_of_recoverable? hrec
      have hsecond := hq s c j' hs hc (x.resume he hfirst)
      cases hrun' : q s c j' with
      | finished v c' j'' =>
        rw [hrun'] at hsecond
        simpa only [hrec, hrun'] using hsecond
      | failed failure' j'' =>
        rw [hrun'] at hsecond
        cases hrec' : failure'.recoverable? with
        | none => simpa only [hrec, hrun', hrec'] using hsecond
        | some second =>
          obtain ⟨rfl, he'⟩ := Failure.exists_of_recoverable? hrec'
          -- both have failed: the failure that got further is raised
          simp only [hrec, hrun', hrec', further]
          split
          · exact hsecond
          · exact x.raiseAgain he hfirst (x.resume he' hsecond)

theorem Keeps.rewindIf {p : Parser α} (forget : α → Bool) (hp : Keeps x room p) :
    Keeps x room (rewindIf forget p) := by
  intro s c j hs hc hj
  have hmeets := hp s c j hs hc hj
  rw [Parser.rewindIf]
  cases hrun : p s c j with
  | finished v c' j' =>
    rw [hrun] at hmeets
    refine ⟨?_, hmeets.2⟩
    split
    · exact hc
    · exact hmeets.1
  | failed failure j' =>
    rw [hrun] at hmeets
    exact hmeets

/-- So many turns keep what each of them keeps. -/
theorem Keeps.turns {turn : σ → Parser (Next σ)} (h : ∀ y, Keeps x room (turn y)) (n : Nat)
    (y : σ) : Keeps x room (turns turn n y) := by
  induction n generalizing y with
  | zero => exact keeps_pure y
  | succ n ih =>
    refine (h y).bind fun next => ?_
    -- the turn asks for another one, or for the end
    cases next with
    | again z => exact ih z
    | done z => exact keeps_pure z

theorem Keeps.iterate {turn : σ → Parser (Next σ)} (h : ∀ y, Keeps x room (turn y)) (y : σ) :
    Keeps x room (iterate turn y) :=
  fun s c j => Keeps.turns h (c.ahead.length + 1) y s c j

/-- What got furthest is in the journal, of which the invariant speaks. -/
theorem Keeps.blame {p : Parser α} (hp : Keeps x room p) : Keeps x room (blame p) := by
  intro s c j hs hc hj
  rw [Parser.blame]
  cases hbest : j.furthest with
  | none => exact hp s c j hs hc hj
  | some e =>
    dsimp only
    split
    · exact x.blame hbest hj
    · exact hp s c j hs hc hj

theorem Keeps.watch {p : Parser Finding} (step : Text) (hp : Keeps x room p) :
    Keeps x room (watch step p) := by
  intro s c j hs hc hj
  have hmeets := hp s c j hs hc hj
  rw [Parser.watch]
  cases hrun : p s c j with
  | finished v c' j' =>
    rw [hrun] at hmeets
    exact ⟨hmeets.1, x.watch _ hmeets.2⟩
  | failed failure j' =>
    rw [hrun] at hmeets
    exact x.watch_failure _ hmeets

end Parser

namespace Grammar

open GDScript.Parser (Keeps)

variable {R : Type → Type} [RuleSet R] {α : Type} {x : RuleInvariant}

/-- A run keeps the invariant, if the rules do that it enters. -/
theorem keeps_runWith {enter : Entry R} {room : Nat}
    (h : ∀ (β : Type) (label : Text) (g : Grammar R β), Keeps x room (enter β label g))
    (g : Grammar R α) : Keeps x room (runWith enter g) := by
  induction g with
  | pure v => exact Parser.keeps_pure v
  | bind _ _ ih ihf => exact ih.bind ihf
  | read reader => exact Parser.keeps_read reader
  | note complaint => exact Parser.keeps_note complaint
  | here | nesting => exact fun _ _ _ _ hc hj => ⟨hc, hj⟩
  | abort defect => exact fun _ _ _ _ _ hj => x.abort defect hj
  | call rule => exact h _ _ _
  | within label g => exact h _ _ _
  | bracketed _ ih => exact ih.bracketed
  | attempt _ ih => exact ih.attempt
  | orElse _ _ ih ih' => exact ih.orElse ih'
  | rewindIf forget _ ih => exact ih.rewindIf forget
  | iterate _ y ih => exact Keeps.iterate ih y
  | blame _ ih => exact ih.blame
  | watch step _ ih => exact ih.watch step

/-- Every run keeps the invariant. -/
theorem keeps (x : Invariant) (room : Nat) (g : Grammar R α) :
    Keeps x.toRuleInvariant room (run room g) := by
  rw [run_eq_runWith]
  induction room generalizing α g with
  | zero =>
    -- no rule can be entered without room
    have htooDeep : ∀ β : Type, Keeps x.toRuleInvariant 0 (Parser.tooDeep : Parser β) :=
      fun _ _ _ _ hs hc hj => x.exceed hs hc hj
    exact keeps_runWith (fun β _ _ => htooDeep β) g
  | succ room ih =>
    refine keeps_runWith (fun _ label g s c j hs hc hj => ?_) g
    have hbody : Keeps x.toRuleInvariant room (run room g) := by
      rw [run_eq_runWith]
      exact ih g
    exact hbody _ c j (x.enter label hs hc) hc hj

end Grammar

end GDScript
