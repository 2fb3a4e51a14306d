import GDScript.Proofs.Leading
import GDScript.Proofs.Program.Machine
import GDScript.Proofs.Taking

/-!
# Machines and runs

A program does on a machine what its grammar does in a run (`Program.simulates_exec`): it finds the same,
or fails in the same way, and the same failure gets furthest. The run leaves its scope alone and starts
an alternative from the cursor at hand; what the machine changes is undone by then.
-/

namespace GDScript

open Grammar

namespace Machine

/-- There is room for so many further rules. -/
def room (m : Machine) : Nat := (m.limit - m.contexts.length).toNat

variable {m : Machine} {e : ParseError} {journal : Journal}

/-- A failure that is raised gets furthest on the machine when it does in the journal. -/
theorem record_raised (h : journal.furthest = m.furthest) :
    m.record false e = { m with furthest := Journal.furthest (.raised e :: journal) } := by
  rw [record, Journal.furthest_cons, h]
  cases hbest : m.furthest with
  | none => rfl
  | some b =>
    simp only [Event.furthest]
    -- a later failure replaces one at the same place
    by_cases hle : b.location.offset ≤ e.location.offset
    · rw [if_pos hle, if_pos (by simpa using by omega)]
    · rw [if_neg hle, if_neg (by simpa using by omega), ← hbest]

/-- So does one that is noted, which must lie beyond the others. -/
theorem record_noted (h : journal.furthest = m.furthest) :
    m.record true e = { m with furthest := Journal.furthest (.noted e :: journal) } := by
  rw [record, Journal.furthest_cons, h]
  cases hbest : m.furthest with
  | none => rfl
  | some b =>
    simp only [Event.furthest]
    -- but a noted one does not
    by_cases hlt : b.location.offset < e.location.offset
    · rw [if_pos hlt, if_pos (.inl hlt)]
    · rw [if_neg hlt, if_neg (by simpa using hlt), ← hbest]

end Machine

/-- The step of the machine comes to what the run comes to. -/
def Outcome.Agrees {α : Type} (m : Machine) : Outcome α → Ended α → Prop
  | .finished v c journal, ended =>
    ended = (.ok v, { m with cursor := c, furthest := journal.furthest })
  | .failed failure journal, ended =>
    ∃ c, ended = (.error failure, { m with cursor := c, furthest := journal.furthest })

namespace Outcome

variable {α : Type} {m : Machine} {journal : Journal}

/-- A step that leaves the machine alone, but for the cursor. -/
theorem agrees_finished (hj : journal.furthest = m.furthest) (v : α) (c : Cursor) :
    (finished v c journal).Agrees m (.ok v, { m with cursor := c }) := by
  rw [Agrees, hj]

/-- A failure that leaves the machine alone. -/
theorem agrees_failed (hj : journal.furthest = m.furthest) (failure : Failure) :
    (failed failure journal : Outcome α).Agrees m (.error failure, m) :=
  ⟨m.cursor, by rw [hj]⟩

end Outcome

/-- The failure of a run, after another one that could be recovered from. -/
def Outcome.better {α : Type} (best : Option ParseError) : Outcome α → Outcome α
  | .finished v c journal => .finished v c journal
  | .failed failure journal =>
    match failure.recoverable? with
    | some e => .failed (.parse (Action.better best e)) journal
    | none => .failed failure journal

/-- Without an earlier failure the outcome stays as it is. -/
theorem Outcome.better_none {α : Type} (o : Outcome α) : o.better none = o := by
  cases o with
  | finished v c journal => rfl
  | failed failure journal =>
    rw [better]
    cases hrec : failure.recoverable? with
    | none => rfl
    | some e =>
      rw [(Failure.exists_of_recoverable? hrec).1]
      rfl

namespace Action

variable {R : Type → Type} [RuleSet R] {α β ι : Type} {g : Grammar R α} {a : Action α} {m : Machine}

/-- From every state, the step does what a run of the grammar does. -/
def Simulates (a : Action α) (g : Grammar R α) : Prop :=
  ∀ (m : Machine) journal, Journal.furthest journal = m.furthest →
    (run m.room g m.scope m.cursor journal).Agrees m (a m)

theorem simulates_pure (v : α) : Simulates (fun m => (.ok v, m)) (.pure v : Grammar R α) := by
  intro m journal hj
  rw [run_eq_runWith]
  exact Outcome.agrees_finished hj v m.cursor

theorem simulates_here :
    Simulates (fun m => (.ok m.cursor.location, m)) (.here : Grammar R Location) := by
  intro m journal hj
  rw [run_eq_runWith]
  exact Outcome.agrees_finished hj _ m.cursor

/-- Reading moves the cursor; a complaint is recorded where the machine has strayed to. -/
theorem simulates_read (reader : Reader α) (strays : Text → Nat) :
    Simulates (read reader strays) (.read reader : Grammar R α) := by
  intro m journal hj
  show ((run m.room (Grammar.read reader : Grammar R α)) _ _ _).Agrees m _
  rw [run_read, Parser.read, Cursor.read, Action.read]
  cases reader m.cursor.ahead with
  | took v n => exact Outcome.agrees_finished hj v (m.cursor.advanceBy n)
  -- the cursor of the machine is left where the reader has got to
  | fault complaint =>
    exact ⟨m.cursor.advanceBy (strays m.cursor.ahead),
      congrArg (Prod.mk _) (Machine.record_raised (m := { m with cursor := _ }) hj)⟩

/-- A gap is read according to the brackets around it. -/
theorem simulates_gap : Simulates gap (Grammar.gap : Grammar R Unit) := by
  intro m journal hj
  rw [Grammar.gap, run_bind, run_nesting, Action.gap]
  show (run m.room (if m.nesting = 0 then _ else _) _ _ _).Agrees m _
  by_cases hopen : m.nesting = 0
  · rw [if_pos hopen, if_neg (by omega)]
    exact simulates_read (R := R) Reader.skipSpaces _ m journal hj
  · rw [if_neg hopen, if_pos (by omega)]
    exact simulates_read (R := R) Reader.skipLayout _ m journal hj

theorem simulates_abort (misuse : Misuse) :
    Simulates (fun m => (.error (.misuse misuse), m)) (.abort (.misuse misuse) : Grammar R α) := by
  intro m journal hj
  rw [run_eq_runWith]
  exact Outcome.agrees_failed hj _

/-- A failure that is asked for is raised at the cursor. -/
theorem simulates_fail (complaint : Complaint) :
    Simulates (fail (.ok complaint) none) (.read (Reader.fail complaint) : Grammar R α) := by
  intro m journal hj
  show ((run m.room (Grammar.read _ : Grammar R α)) _ _ _).Agrees m _
  rw [run_read]
  exact ⟨m.cursor, congrArg (Prod.mk _) (Machine.record_raised hj)⟩

theorem simulates_note (complaint : Complaint) :
    Simulates (note (.ok complaint) none) (.note fun _ => complaint : Grammar R Unit) := by
  intro m journal hj
  show ((run m.room (Grammar.note _ : Grammar R Unit)) _ _ _).Agrees m _
  rw [run_note]
  exact congrArg (Prod.mk _) (Machine.record_noted hj)

/-- Steps behind one another do what grammars behind one another do. -/
theorem Simulates.bind {f : α → Action β} {k : α → Grammar R β} (ha : Simulates a g)
    (hf : ∀ v, Simulates (f v) (k v)) : Simulates (bind a f) (g >>= k) := by
  intro m journal hj
  have hfirst := ha m journal hj
  rw [run_bind, Parser.bind, Action.bind]
  cases hrun : run m.room g m.scope m.cursor journal with
  | finished v c journal' =>
    rw [hrun] at hfirst
    rw [show a m = _ from hfirst]
    exact hf v { m with cursor := c, furthest := journal'.furthest } journal' rfl
  | failed failure journal' =>
    rw [hrun] at hfirst
    obtain ⟨c, hfirst⟩ := hfirst
    -- the second step is not reached
    exact ⟨c, by rw [hfirst]⟩

/-- What is done on the way in is undone on the way out. -/
theorem agrees_between {enter leave : Machine → Machine} {o : Outcome α}
    (h : o.Agrees (enter m) (a (enter m)))
    (hleave : ∀ c best, leave { enter m with cursor := c, furthest := best }
      = { m with cursor := c, furthest := best }) : o.Agrees m (between enter leave a m) := by
  rw [between]
  cases o with
  | finished v c journal =>
    rw [show a (enter m) = _ from h]
    exact congrArg (Prod.mk _) (hleave c _)
  | failed failure journal =>
    obtain ⟨c, h⟩ := h
    exact ⟨c, by rw [h]; exact congrArg (Prod.mk _) (hleave c _)⟩

/-- A rule is entered with room for one rule less, or complained about. -/
theorem Simulates.within (label : Text) (ha : Simulates a g) :
    Simulates (within label a) (.within label g) := by
  intro m journal hj
  by_cases hfull : m.limit ≤ m.contexts.length
  · have hroom : m.room = 0 := by
      rw [Machine.room]
      omega
    rw [within_of_full hfull, hroom]
    exact ⟨m.cursor, rfl⟩
  · have hroom : m.room = (m.push label).room + 1 := by
      -- the machine counts the rules, the run counts the room for them
      have hlength : (m.push label).contexts.length = m.contexts.length + 1 := rfl
      rw [Machine.room, Machine.room, hlength, show (m.push label).limit = m.limit from rfl]
      omega
    rw [within_of_room hfull, hroom]
    exact agrees_between (ha (m.push label) journal hj) fun _ _ => rfl

/-- Within brackets, one more of them is counted. -/
theorem Simulates.bracketed (ha : Simulates a g) : Simulates (bracketed a) (.bracketed g) := by
  intro m journal hj
  show (run m.room (Grammar.bracketed g) _ _ _).Agrees m _
  rw [run_bracketed]
  exact agrees_between (ha m.nest journal hj) fun _ _ => rfl

/-- An attempt that fails puts the cursor back, which the run has left in place. -/
theorem Simulates.attempt (ha : Simulates a g) : Simulates (attempt a) (.attempt g) := by
  intro m journal hj
  have hrun := ha m journal hj
  show (run m.room (Grammar.attempt g) _ _ _).Agrees m _
  rw [run_attempt, Parser.attempt]
  cases hinner : run m.room g m.scope m.cursor journal with
  | finished v c journal' =>
    rw [hinner] at hrun
    exact attempt_of_finished hrun
  | failed failure journal' =>
    rw [hinner] at hrun
    obtain ⟨c, hrun⟩ := hrun
    dsimp only
    cases hrec : failure.recoverable? with
    | none => exact ⟨c, attempt_of_final hrun hrec⟩
    | some e => exact attempt_of_recoverable hrun hrec

/-! ### Choices -/

/-- Of three failures, the one that got furthest does not depend on the order of comparing. -/
theorem further_assoc (b e d : ParseError) :
    Parser.further (Parser.further b e) d = Parser.further b (Parser.further e d) := by
  unfold Parser.further
  split_ifs <;> first | rfl | omega

theorem better_further (best : Option ParseError) (e d : ParseError) :
    better best (Parser.further e d) = better (some (better best e)) d := by
  cases best with
  | none => rfl
  | some b => exact (further_assoc b e d).symm

/-- The alternatives after one that fails recoverably go on with its failure in mind. -/
theorem agrees_tries {gs : ι → Grammar R α} {as : ι → Action α} (h : ∀ i, Simulates (as i) (gs i))
    (i : ι) (is : List ι) (best : Option ParseError) (m : Machine) (journal : Journal)
    (hj : journal.furthest = m.furthest) :
    ((run m.room (choice ((i :: is).map gs)) m.scope m.cursor journal).better best).Agrees m
      (tries ((i :: is).map as) best m) := by
  induction is generalizing i best m journal with
  | nil =>
    have hrun := h i m journal hj
    show ((run m.room (gs i) m.scope m.cursor journal).better best).Agrees m (tries [as i] best m)
    cases hinner : run m.room (gs i) m.scope m.cursor journal with
    | finished v c journal' =>
      rw [hinner] at hrun
      exact tries_of_finished hrun
    | failed failure journal' =>
      rw [hinner] at hrun
      obtain ⟨c, hrun⟩ := hrun
      rw [Outcome.better]
      cases hrec : failure.recoverable? with
      | none => exact ⟨c, tries_of_final hrun hrec⟩
      | some e => exact ⟨m.cursor, tries_of_recoverable hrun hrec⟩
  | cons i' is ih =>
    have hrun := h i m journal hj
    show ((run m.room (Grammar.orElse (gs i) (choice ((i' :: is).map gs))) m.scope m.cursor
      journal).better best).Agrees m (tries (as i :: (i' :: is).map as) best m)
    rw [run_orElse, Parser.orElse]
    cases hinner : run m.room (gs i) m.scope m.cursor journal with
    | finished v c journal' =>
      rw [hinner] at hrun
      exact tries_of_finished hrun
    | failed failure journal' =>
      rw [hinner] at hrun
      obtain ⟨c, hrun⟩ := hrun
      dsimp only
      cases hrec : failure.recoverable? with
      | none =>
        simp only [Outcome.better, hrec]
        exact ⟨c, tries_of_final hrun hrec⟩
      | some e =>
        dsimp only
        rw [tries_of_recoverable hrun hrec]
        -- the others run from the same cursor, with the failures of this one kept
        have hrest := ih i' (some (better best e)) { m with furthest := journal'.furthest } journal' rfl
        change ((run m.room (choice ((i' :: is).map gs)) m.scope m.cursor journal').better _).Agrees
          _ _ at hrest
        cases hothers : run m.room (choice ((i' :: is).map gs)) m.scope m.cursor journal' with
        | finished v c' journal'' =>
          rw [hothers] at hrest
          exact hrest
        | failed failure' journal'' =>
          rw [hothers] at hrest
          dsimp only
          cases hrec' : failure'.recoverable? with
          | none =>
            simp only [Outcome.better, hrec'] at hrest ⊢
            exact hrest
          | some d =>
            have he := (Failure.exists_of_recoverable? hrec).2
            have hd := (Failure.exists_of_recoverable? hrec').2
            have hfurther : (Failure.parse (Parser.further e d)).recoverable?
                = some (Parser.further e d) := by
              refine Failure.recoverable?_parse ?_
              unfold Parser.further
              split <;> assumption
            simp only [Outcome.better, hrec'] at hrest
            simp only [Outcome.better, hfurther, better_further]
            exact hrest

/-- A choice tries its alternatives in order; without any, it is misused. -/
theorem simulates_choice {n : Nat} {gs : Fin n → Grammar R α} {as : Fin n → Action α}
    (h : ∀ i, Simulates (as i) (gs i)) :
    Simulates (tries ((List.finRange n).map as) none) (choice ((List.finRange n).map gs)) := by
  intro m journal hj
  cases List.finRange n with
  | nil =>
    show (run m.room (Grammar.abort Defect.emptyChoice) _ _ _).Agrees m _
    rw [run_eq_runWith]
    exact Outcome.agrees_failed hj _
  | cons i is =>
    have hagrees := agrees_tries h i is none m journal hj
    rwa [Outcome.better_none] at hagrees

end Action

/-- Everything that a program does on a machine, its grammar does in a run. -/
theorem Program.simulates_exec {R : Type → Type} [RuleSet R] {α : Type} (p : Program α)
    (hp : p.IsLocal) : Action.Simulates p.exec (p.grammar R) := by
  induction p with
  | pure v => exact Action.simulates_pure v
  | bind p f ih ihf => exact (ih hp.1).bind fun v => ihf v (hp.2 v)
  | here => exact Action.simulates_here
  | gap => exact Action.simulates_gap
  | read reader strays => exact Action.simulates_read reader strays
  | fail request place =>
    obtain rfl : place = none := hp
    cases request with
    | ok complaint => exact Action.simulates_fail complaint
    | error misuse => exact Action.simulates_abort misuse
  | note request place =>
    obtain rfl : place = none := hp
    cases request with
    | ok complaint => exact Action.simulates_note complaint
    | error misuse => exact Action.simulates_abort misuse
  | within label p ih => exact (ih hp).within label
  | bracketed p ih => exact (ih hp).bracketed
  | attempt p ih => exact (ih hp).attempt
  | @choice α n alternatives ih => exact Action.simulates_choice fun i => ih i (hp i)

end GDScript
