import GDScript.Grammar.Journal

/-!
# Parsers

A parser runs in a scope, from a cursor, with the journal so far. It finishes with a value and a
cursor, or fails; the journal goes on in both cases, but a failure leaves no cursor, so what comes
after it starts from a place of its own. The scope is only read: what holds inside a rule or inside
brackets ends with it.
-/

namespace GDScript

/-- What holds around the cursor. -/
structure Scope where
  /-- The active rules, innermost first. -/
  frames : List Frame
  /-- The number of open brackets. -/
  nesting : Nat
  /-- The greatest number of rules that may be active. -/
  limit : Int
deriving Repr

/-- How a run ends. -/
inductive Outcome (α : Type) where
  | finished (value : α) (cursor : Cursor) (journal : Journal)
  | failed (failure : Failure) (journal : Journal)
deriving Repr

/-- The journal at the end of a run. -/
def Outcome.journal {α : Type} : Outcome α → Journal
  | .finished _ _ journal => journal
  | .failed _ journal => journal

/-- A run, waiting for its scope, cursor and journal. -/
abbrev Parser (α : Type) := Scope → Cursor → Journal → Outcome α

/-- What a turn of a repetition asks for. -/
inductive Next (σ : Type) where
  /-- Another turn. -/
  | again (state : σ)
  /-- The end. -/
  | done (state : σ)
deriving Repr

/-- A failure of the grammar that is in order, and so can be recovered from or not. -/
def Failure.recoverable? : Failure → Option ParseError
  | .parse e => if e.recoverable then some e else none
  | _ => none

/-- What a grammar can be asked for that no text is to blame for. -/
inductive Defect where
  /-- A choice without alternatives. -/
  | emptyChoice
  /-- A failure with a code that the grammar may not report. -/
  | misuse (m : Misuse)
deriving Repr

/-- The failure that a defect is. -/
def Defect.failure : Defect → Failure
  | .emptyChoice => .internal "choice() needs at least one alternative"
  | .misuse m => .misuse m

/-- The error that a complaint is, about a place, in a scope. -/
def Complaint.error (complaint : Complaint) (location : Location) (scope : Scope) : ParseError :=
  { code := complaint.code
    message := complaint.message
    location := location
    frames := scope.frames
    arguments := some complaint.arguments
    recoverable := true }

/-- The error for a rule that the depth limit leaves no room for. -/
def Scope.tooDeep (scope : Scope) (location : Location) : ParseError :=
  let arguments : Arguments := [("maxDepth", .integer scope.limit)]
  { code := .nestingTooDeep
    message := Code.nestingTooDeep.message arguments
    location := location
    frames := scope.frames
    arguments := some arguments
    recoverable := false }

namespace Parser

variable {α β σ : Type}

/-- Finishes where it starts. -/
def pure (value : α) : Parser α := fun _ cursor journal => .finished value cursor journal

/-- One parser and, with what it found, another one. -/
def bind (p : Parser α) (f : α → Parser β) : Parser β := fun scope cursor journal =>
  match p scope cursor journal with
  | .finished value cursor journal => f value scope cursor journal
  | .failed failure journal => .failed failure journal

/-- Reads at the cursor; a complaint is raised. -/
def read (reader : Reader α) : Parser α := fun scope cursor journal =>
  match cursor.read reader with
  | .ok (value, cursor) => .finished value cursor journal
  | .error (complaint, location) =>
    let e := complaint.error location scope
    .failed (.parse e) (.raised e :: journal)

/-- Notes a complaint about the text ahead without raising it. -/
def note (complaint : Text → Complaint) : Parser Unit := fun scope cursor journal =>
  let c := complaint cursor.ahead
  let e := c.error (cursor.advanceBy c.distance).location scope
  .finished () cursor (.noted e :: journal)

/-- The place of the cursor. -/
def here : Parser Location := fun _ cursor journal => .finished cursor.location cursor journal

/-- The number of open brackets. -/
def nesting : Parser Nat := fun scope cursor journal => .finished scope.nesting cursor journal

/-- Ends the run because of a defect. -/
def abort (defect : Defect) : Parser α := fun _ _ journal => .failed defect.failure journal

/-- Fails because the depth limit leaves no room for another rule. -/
def tooDeep : Parser α := fun scope cursor journal =>
  let e := scope.tooDeep cursor.location
  .failed (.parse e) (.exceeded e :: journal)

/-- Runs within a rule that starts at the cursor. -/
def within (label : Text) (p : Parser α) : Parser α := fun scope cursor journal =>
  p { scope with frames := ⟨label, cursor.location⟩ :: scope.frames } cursor journal

/-- Runs inside a pair of brackets. -/
def bracketed (p : Parser α) : Parser α := fun scope cursor journal =>
  p { scope with nesting := scope.nesting + 1 } cursor journal

/-- Gives up on a recoverable failure and goes on from where it started. -/
def attempt (p : Parser α) : Parser (Option α) := fun scope cursor journal =>
  match p scope cursor journal with
  | .finished value cursor journal => .finished (some value) cursor journal
  | .failed failure journal =>
    match failure.recoverable? with
    | some e => .finished none cursor (.abandoned e :: journal)
    | none => .failed failure journal

/-- The one of two failures that got further, the first one if they got equally far. -/
def further (first second : ParseError) : ParseError :=
  if first.location.offset < second.location.offset then second else first

/--
The second parser when the first one fails recoverably; when both do, the failure that got further.
-/
def orElse (p q : Parser α) : Parser α := fun scope cursor journal =>
  match p scope cursor journal with
  | .finished value cursor journal => .finished value cursor journal
  | .failed failure journal =>
    match failure.recoverable? with
    | none => .failed failure journal
    | some first =>
      match q scope cursor journal with
      | .finished value cursor journal => .finished value cursor journal
      | .failed failure journal =>
        match failure.recoverable? with
        | none => .failed failure journal
        | some second => .failed (.parse (further first second)) journal

/-- Goes back to where it started when what it found is to be forgotten. -/
def rewindIf (forget : α → Bool) (p : Parser α) : Parser α := fun scope cursor journal =>
  match p scope cursor journal with
  | .finished value behind journal =>
    .finished value (if forget value then cursor else behind) journal
  | .failed failure journal => .failed failure journal

/-- At most `turns` turns, each with the state that the one before it left. -/
def turns (turn : σ → Parser (Next σ)) : Nat → σ → Parser σ
  | 0, state => pure state
  | n + 1, state => bind (turn state) fun
    | .again state => turns turn n state
    | .done state => pure state

/--
Turns until one asks for the end. A turn that asks for another one has taken a unit, so there are at
most as many of those as there are units ahead.
-/
def iterate (turn : σ → Parser (Next σ)) (state : σ) : Parser σ := fun scope cursor journal =>
  turns turn (cursor.ahead.length + 1) state scope cursor journal

/-- Raises again the failure that got furthest, if it lies at the cursor or after it. -/
def blame (otherwise : Parser α) : Parser α := fun scope cursor journal =>
  match journal.furthest with
  | none => otherwise scope cursor journal
  | some e =>
    if cursor.location.offset ≤ e.location.offset then .failed (.parse e) journal
    else otherwise scope cursor journal

/-- Runs, and writes down how it ended. -/
def watch (step : Text) (p : Parser Finding) : Parser Finding := fun scope cursor journal =>
  let entry (ending : Ending) (journal : Journal) : Journal :=
    .watched ⟨step, ending, scope.frames, scope.nesting, journal.furthest⟩ :: journal
  match p scope cursor journal with
  | .finished found cursor journal =>
    .finished found cursor (entry (.finished found cursor.location) journal)
  | .failed failure journal => .failed failure (entry (.failed failure) journal)

end Parser

end GDScript
