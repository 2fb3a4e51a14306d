import GDScript.Grammar.Basic
import Mathlib.Data.List.FinRange

/-!
# Programs on a machine

A run of a grammar hands its scope on and returns a cursor, so nothing has to be undone in it. A
machine has one state that everything changes in place: the cursor, the stack of active rules, the
number of open brackets, the failure that got furthest. What a step does to them outlives a failure
in it, so each way to combine steps has to undo what must not last: a rule leaves the stack and a
bracket is closed however the step inside ends, and the cursor is put back before something else is
tried.

`Program` has all that a rule is made of, and `Program.exec` is its meaning on a machine.
-/

namespace GDScript

/-- The state of a machine. -/
structure Machine where
  cursor : Cursor
  /-- The active rules, innermost first. -/
  contexts : List Frame
  /-- The number of open brackets. -/
  nesting : Nat
  /-- The failure that got furthest. -/
  furthest : Option ParseError
  /-- The greatest number of rules that may be active. -/
  limit : Int

namespace Machine

/-- What holds around the cursor. -/
def scope (m : Machine) : Scope := ⟨m.contexts, m.nesting, m.limit⟩

/--
Keeps the failure if it got furthest. At equal offsets one that is raised replaces the one before it,
and one that is noted does not.
-/
def record (noted : Bool) (e : ParseError) (m : Machine) : Machine :=
  match m.furthest with
  | none => { m with furthest := some e }
  | some best =>
    if best.location.offset < e.location.offset ∨
        (noted = false ∧ e.location.offset = best.location.offset) then
      { m with furthest := some e }
    else m

/-- A rule is entered at the cursor. -/
def push (label : Text) (m : Machine) : Machine :=
  { m with contexts := ⟨label, m.cursor.location⟩ :: m.contexts }

/-- The innermost rule is left. -/
def pop (m : Machine) : Machine := { m with contexts := m.contexts.tail }

/-- A bracket is opened. -/
def nest (m : Machine) : Machine := { m with nesting := m.nesting + 1 }

/-- A bracket is closed. -/
def unnest (m : Machine) : Machine := { m with nesting := m.nesting - 1 }

end Machine

/-- What a step comes to: what it finds or how it fails, and the state that it leaves. -/
abbrev Ended (α : Type) := Except Failure α × Machine

/-- A step of a machine. -/
abbrev Action (α : Type) := Machine → Ended α

namespace Action

variable {α β : Type}

/-- One step and, with what it found, another one. -/
def bind (a : Action α) (f : α → Action β) : Action β := fun m =>
  match a m with
  | (.ok v, m') => f v m'
  | (.error failure, m') => (.error failure, m')

/-- Keeps the failure and fails with it. -/
def raise (e : ParseError) : Action α := fun m => (.error (.parse e), m.record false e)

/--
Reads at the cursor. A reader that complains has gone somewhere before it does, as far as `strays`
says of the text ahead.
-/
def read (reader : Reader α) (strays : Text → Nat) : Action α := fun m =>
  match reader m.cursor.ahead with
  | .took v n => (.ok v, { m with cursor := m.cursor.advanceBy n })
  | .fault complaint =>
    raise (complaint.error (m.cursor.advanceBy complaint.distance).location m.scope)
      { m with cursor := m.cursor.advanceBy (strays m.cursor.ahead) }

/-- Takes the gap before the next token, which spans lines inside brackets only. -/
def gap : Action Unit := fun m =>
  if 0 < m.nesting then read Reader.skipLayout (fun _ => 0) m
  else read Reader.skipSpaces (fun _ => 0) m

/-- The error that a complaint is, about the given place or else about the one that it names. -/
def errorAt (complaint : Complaint) (place : Option Location) (m : Machine) : ParseError :=
  complaint.error (place.getD (m.cursor.advanceBy complaint.distance).location) m.scope

/-- Fails with the complaint, or because there is no such complaint. -/
def fail (request : Except Misuse Complaint) (place : Option Location) : Action α := fun m =>
  match request with
  | .ok complaint => raise (errorAt complaint place m) m
  | .error misuse => (.error (.misuse misuse), m)

/-- Keeps the complaint as a failure without failing. -/
def note (request : Except Misuse Complaint) (place : Option Location) : Action Unit := fun m =>
  match request with
  | .ok complaint => (.ok (), m.record true (errorAt complaint place m))
  | .error misuse => (.error (.misuse misuse), m)

/-- A step between two others, the last of which is done however the step ends. -/
def between (enter leave : Machine → Machine) (a : Action α) : Action α := fun m =>
  let ended := a (enter m)
  (ended.1, leave ended.2)

/-- A step within a rule, for which there has to be room. -/
def within (label : Text) (a : Action α) : Action α := fun m =>
  if m.limit ≤ m.contexts.length then
    let e := m.scope.tooDeep m.cursor.location
    (.error (.parse e), { m with furthest := some e })
  else
    between (Machine.push label) Machine.pop a m

/-- A step inside a pair of brackets. -/
def bracketed (a : Action α) : Action α := between Machine.nest Machine.unnest a

/-- A step, or nothing when it fails recoverably; then the cursor is put back. -/
def attempt (a : Action α) : Action (Option α) := fun m =>
  match a m with
  | (.ok v, m') => (.ok (some v), m')
  | (.error failure, m') =>
    match failure.recoverable? with
    | some _ => (.ok none, { m' with cursor := m.cursor })
    | none => (.error failure, m')

/-- The failure that got further, the new one only if there is no other that got as far. -/
def better (best : Option ParseError) (e : ParseError) : ParseError :=
  match best with
  | none => e
  | some b => Parser.further b e

/--
The steps one after the other, each from where the first one started, until one does not fail
recoverably. When all do, the best failure is raised again.
-/
def tries : List (Action α) → Option ParseError → Action α
  | [], none => fun m => (.error Defect.emptyChoice.failure, m)
  | [], some best => fun m => (.error (.parse best), m)
  | a :: rest, best => fun m =>
    match a m with
    | (.ok v, m') => (.ok v, m')
    | (.error failure, m') =>
      match failure.recoverable? with
      | some e => tries rest (some (better best e)) { m' with cursor := m.cursor }
      | none => (.error failure, m')

/-! ### Steps around steps -/

section

variable {a : Action α} {m m' : Machine} {v : α} {failure : Failure} {e : ParseError}
  {rest : List (Action α)} {best : Option ParseError}

theorem within_of_full {label : Text} (h : m.limit ≤ m.contexts.length) :
    within label a m = (.error (.parse (m.scope.tooDeep m.cursor.location)),
      { m with furthest := some (m.scope.tooDeep m.cursor.location) }) :=
  if_pos h

theorem within_of_room {label : Text} (h : ¬m.limit ≤ m.contexts.length) :
    within label a m = between (Machine.push label) Machine.pop a m :=
  if_neg h

theorem attempt_of_finished (h : a m = (.ok v, m')) : attempt a m = (.ok (some v), m') := by
  simp only [attempt, h]

theorem attempt_of_recoverable (h : a m = (.error failure, m'))
    (hrec : failure.recoverable? = some e) :
    attempt a m = (.ok none, { m' with cursor := m.cursor }) := by
  simp only [attempt, h, hrec]

theorem attempt_of_final (h : a m = (.error failure, m')) (hrec : failure.recoverable? = none) :
    attempt a m = (.error failure, m') := by
  simp only [attempt, h, hrec]

theorem tries_of_finished (h : a m = (.ok v, m')) : tries (a :: rest) best m = (.ok v, m') := by
  simp only [tries, h]

theorem tries_of_recoverable (h : a m = (.error failure, m'))
    (hrec : failure.recoverable? = some e) :
    tries (a :: rest) best m
      = tries rest (some (better best e)) { m' with cursor := m.cursor } := by
  simp only [tries, h, hrec]

theorem tries_of_final (h : a m = (.error failure, m')) (hrec : failure.recoverable? = none) :
    tries (a :: rest) best m = (.error failure, m') := by
  simp only [tries, h, hrec]

end

end Action

/-- What rules are made of, nested in any way. -/
inductive Program : Type → Type 1 where
  /-- Nothing. -/
  | pure {α : Type} (value : α) : Program α
  /-- One program and, with what it found, another one. -/
  | bind {α β : Type} (p : Program α) (f : α → Program β) : Program β
  /-- The place of the cursor. -/
  | here : Program Location
  /-- The gap before the next token. -/
  | gap : Program Unit
  /-- A reader: a text or a word that is looked for or demanded, an operator, a literal, so many units. -/
  | read {α : Type} (reader : Reader α) (strays : Text → Nat) : Program α
  /-- A failure, about the cursor or about another place. -/
  | fail {α : Type} (request : Except Misuse Complaint) (place : Option Location) : Program α
  /-- A failure that is kept, and not raised. -/
  | note (request : Except Misuse Complaint) (place : Option Location) : Program Unit
  /-- A program within a rule. -/
  | within {α : Type} (label : Text) (p : Program α) : Program α
  /-- A program inside a pair of brackets. -/
  | bracketed {α : Type} (p : Program α) : Program α
  /-- A program, or nothing when it fails recoverably. -/
  | attempt {α : Type} (p : Program α) : Program (Option α)
  /-- The first of some programs that does not fail recoverably. -/
  | choice {α : Type} {n : Nat} (alternatives : Fin n → Program α) : Program α

namespace Program

/-- Runs a program on a machine. -/
def exec : {α : Type} → Program α → Action α
  | _, .pure v => fun m => (.ok v, m)
  | _, .bind p f => Action.bind p.exec fun v => (f v).exec
  | _, .here => fun m => (.ok m.cursor.location, m)
  | _, .gap => Action.gap
  | _, .read reader strays => Action.read reader strays
  | _, .fail request place => Action.fail request place
  | _, .note request place => Action.note request place
  | _, .within label p => Action.within label p.exec
  | _, .bracketed p => Action.bracketed p.exec
  | _, .attempt p => Action.attempt p.exec
  | _, .choice (n := n) alternatives =>
    Action.tries ((List.finRange n).map fun i => (alternatives i).exec) none
termination_by structural _ p => p

/-- The program as a grammar. -/
def grammar (R : Type → Type) : {α : Type} → Program α → Grammar R α
  | _, .pure v => .pure v
  | _, .bind p f => .bind (p.grammar R) fun v => (f v).grammar R
  | _, .here => .here
  | _, .gap => Grammar.gap
  | _, .read reader _ => .read reader
  | _, .fail (.ok complaint) _ => .read (Reader.fail complaint)
  | _, .fail (.error misuse) _ | _, .note (.error misuse) _ => .abort (.misuse misuse)
  | _, .note (.ok complaint) _ => .note fun _ => complaint
  | _, .within label p => .within label (p.grammar R)
  | _, .bracketed p => .bracketed (p.grammar R)
  | _, .attempt p => .attempt (p.grammar R)
  | _, .choice (n := n) alternatives =>
    Grammar.choice ((List.finRange n).map fun i => (alternatives i).grammar R)
termination_by structural _ p => p

/-- No complaint of the program is about a place that it does not name itself. -/
def IsLocal : {α : Type} → Program α → Prop
  | _, .pure _ | _, .here | _, .gap | _, .read _ _ => True
  | _, .bind p f => p.IsLocal ∧ ∀ v, (f v).IsLocal
  | _, .fail _ place | _, .note _ place => place = none
  | _, .within _ p | _, .bracketed p | _, .attempt p => p.IsLocal
  | _, .choice alternatives => ∀ i, (alternatives i).IsLocal
termination_by structural _ p => p

end Program

end GDScript
