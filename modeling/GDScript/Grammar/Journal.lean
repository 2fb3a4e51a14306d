import GDScript.Cursor
import GDScript.Reader.Operator
import GDScript.Tree.Literal

/-!
# The journal of a run

A run of a grammar writes down what goes wrong in it, also where it then finds another way: what was
raised, what was noted without being raised, where the depth limit was exceeded, what an attempt
gave up on. The failure that got furthest is read off the journal by `Journal.furthest`: a raised
failure replaces one that got no further, a noted one only one that got less far, and an exceeded
limit replaces everything.

Steps of a run can be watched; then the journal also holds what each of them found.
-/

namespace GDScript

/-- What a watched step found. -/
inductive Finding where
  | nothing
  | flag (value : Bool)
  | number (value : Nat)
  | text (value : Text)
  | location (value : Location)
  | int (literal : IntLiteral)
  | float (literal : FloatLiteral)
  | string (literal : StringLiteral)
  | spelling (text op : Text) (isWord : Bool) (notBefore : Text)
deriving Repr

/-- How a watched step ended. -/
inductive Ending where
  /-- It found something and left the cursor at the place. -/
  | finished (finding : Finding) (location : Location)
  | failed (failure : Failure)
deriving Repr

/-- A watched step, as it was when it ended. -/
structure Watched where
  /-- The name of the step. -/
  step : Text
  /-- How it ended. -/
  ending : Ending
  /-- The rules that were active, innermost first. -/
  frames : List Frame
  /-- The number of brackets that were open. -/
  nesting : Nat
  /-- The failure that had got furthest. -/
  furthest : Option ParseError
deriving Repr

/-- An event of a run. -/
inductive Event where
  /-- A failure was raised. -/
  | raised (e : ParseError)
  /-- A failure was noted, and the run went on. -/
  | noted (e : ParseError)
  /-- The depth limit was exceeded. -/
  | exceeded (e : ParseError)
  /-- An attempt gave up on a failure. -/
  | abandoned (e : ParseError)
  /-- A watched step ended. -/
  | watched (w : Watched)
deriving Repr

/-- The failure that got furthest, after one more event. -/
def Event.furthest (event : Event) (best : Option ParseError) : Option ParseError :=
  match event, best with
  | .raised e, none | .noted e, none | .exceeded e, _ => some e
  | .raised e, some b => some (if b.location.offset ≤ e.location.offset then e else b)
  | .noted e, some b => some (if b.location.offset < e.location.offset then e else b)
  | .abandoned _, best | .watched _, best => best

/-- The events of a run, the last one first. -/
abbrev Journal := List Event

namespace Journal

/-- The failure that got furthest. -/
def furthest (journal : Journal) : Option ParseError := journal.foldr Event.furthest none

@[simp] theorem furthest_nil : furthest [] = none := rfl

@[simp] theorem furthest_cons (event : Event) (journal : Journal) :
    furthest (event :: journal) = event.furthest (furthest journal) := rfl

/-- The watched steps, the first one first. -/
def watched (journal : Journal) : List Watched :=
  journal.reverse.filterMap fun
    | .watched w => some w
    | _ => none

end Journal

end GDScript
