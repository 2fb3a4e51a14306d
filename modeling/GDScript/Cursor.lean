import GDScript.Diagnostic.Failure

/-!
# Cursors and readers

A cursor stands between the text that has been read and the text ahead. A lexical rule is a
`Reader`: it looks at the text ahead and says what it found and how many units that takes, or raises
a complaint about a place ahead. So a reader cannot depend on the position, and the only way a
cursor moves is forward, by `Cursor.advanceBy`.
-/

namespace GDScript

/-- A place in a text, with what stands on both sides of it. -/
structure Cursor where
  /-- What has been read, the last unit first. -/
  behind : Text
  /-- What has not been read. -/
  ahead : Text
  /-- The place. -/
  location : Location
deriving DecidableEq, Repr

namespace Cursor

/-- The cursor at the start of a text. -/
def ofText (source : Text) : Cursor := ⟨[], source, Location.first⟩

/-- The whole text around a cursor. -/
def source (c : Cursor) : Text := c.behind.reverse ++ c.ahead

/-- The cursor behind the next unit; at the end of the text it stays. -/
def advance (c : Cursor) : Cursor :=
  match c.ahead with
  | [] => c
  | u :: rest => ⟨u :: c.behind, rest, c.location.after u⟩

/-- The cursor behind the next `n` units, or at the end of the text. -/
def advanceBy : Nat → Cursor → Cursor
  | 0, c => c
  | n + 1, c =>
    match c.ahead with
    | [] => c
    | _ :: _ => advanceBy n c.advance

/-- The unit `distance` places after the cursor, before it for a negative distance. -/
def peek (c : Cursor) : Int → Option CodeUnit
  | .ofNat n => c.ahead[n]?
  | .negSucc n => c.behind[n]?

@[simp] theorem source_ofText (t : Text) : (ofText t).source = t := rfl

/-- Going forward keeps the whole text. -/
@[simp] theorem source_advance (c : Cursor) : c.advance.source = c.source := by
  rcases c with ⟨_, _ | _, _⟩ <;> simp [advance, source]

/-- Going forward by any number keeps the whole text. -/
@[simp] theorem source_advanceBy (n : Nat) (c : Cursor) : (advanceBy n c).source = c.source := by
  induction n generalizing c with
  | zero => rfl
  | succ n ih =>
    rw [advanceBy]
    split
    · rfl
    · rw [ih, source_advance]

/-- Behind one unit there is one less ahead. -/
theorem ahead_advance (c : Cursor) : c.advance.ahead = c.ahead.drop 1 := by
  rcases c with ⟨_, _ | _, _⟩ <;> simp [advance]

/-- Behind so many units there are so many less ahead. -/
@[simp] theorem ahead_advanceBy (n : Nat) (c : Cursor) :
    (advanceBy n c).ahead = c.ahead.drop n := by
  induction n generalizing c with
  | zero => simp [advanceBy]
  | succ n ih =>
    rw [advanceBy]
    split
    · next h => simp [h]
    · rw [ih, ahead_advance, List.drop_drop, Nat.add_comm]

@[simp] theorem advanceBy_zero (c : Cursor) : advanceBy 0 c = c := rfl

/-- At the end of the text a cursor stays. -/
theorem advanceBy_of_ahead_eq_nil {c : Cursor} (h : c.ahead = []) (n : Nat) :
    advanceBy n c = c := by
  cases n <;> simp [advanceBy, h]

/-- Going forward twice is going forward once, by the sum. -/
theorem advanceBy_advanceBy (m n : Nat) (c : Cursor) :
    advanceBy n (advanceBy m c) = advanceBy (m + n) c := by
  induction m generalizing c with
  | zero => rw [advanceBy_zero, Nat.zero_add]
  | succ m ih =>
    rw [Nat.add_right_comm]
    cases h : c.ahead with
    | nil => simp only [advanceBy_of_ahead_eq_nil h]
    | cons u rest => simp only [advanceBy, h, ih]

end Cursor

/-- What is wrong at a place ahead. -/
structure Complaint where
  /-- The condition. -/
  code : Code
  /-- The values to report. -/
  arguments : Arguments
  /-- An advice that follows the message, empty when there is none. -/
  hint : Text
  /-- How many units ahead of the cursor the place is. -/
  distance : Nat
deriving DecidableEq, Repr

namespace Complaint

/-- The message of the code, and the advice. -/
def message (c : Complaint) : Text :=
  let advice : Text := if c.hint.isEmpty then [] else ". " ++ c.hint
  c.code.message c.arguments ++ advice

/-- The advice for a closing bracket that is still missing at the end of the input. -/
def closerHint (what : Text) : Text :=
  if what == "')'" then "Hint: Check for unclosed parenthesis"
  else if what == "']'" then "Hint: Check for unclosed bracket"
  else if what == "'\x7d'" then "Hint: Check for unclosed brace"
  else []

/-- Something was expected at the cursor and the next unit is another one. -/
def unexpected (what : Text) (next : Option CodeUnit) : Complaint :=
  { code := .unexpectedInput
    arguments := [("expected", .text what), ("found", .text (Text.describe next))]
    hint := if next.isNone then closerHint what else []
    distance := 0 }

/-- The same complaint about a place that lies `n` units further ahead. -/
def shift (n : Nat) (c : Complaint) : Complaint := { c with distance := c.distance + n }

end Complaint

/-- What a lexical rule says about the text ahead. -/
inductive Reading (α : Type) where
  /-- It found `value`, which takes `length` units. -/
  | took (value : α) (length : Nat)
  /-- The text cannot be read. -/
  | fault (complaint : Complaint)
deriving DecidableEq, Repr

/-- A lexical rule. -/
abbrev Reader (α : Type) := Text → Reading α

namespace Reader

/-- Looks at the text ahead and takes nothing. -/
def look {α : Type} (f : Text → α) : Reader α := fun t => .took (f t) 0

/-- Takes so many units. -/
def skip (length : Text → Nat) : Reader Unit := fun t => .took () (length t)

/-- Takes a lexeme, if there is one ahead. -/
def lexeme (find : Text → Option Text) : Reader (Option Text) := fun t =>
  match find t with
  | some found => .took (some found) found.length
  | none => .took none 0

/-- Takes so many units when the condition holds. -/
def takeIf (length : Nat) (condition : Text → Bool) : Reader Bool := fun t =>
  if condition t then .took true length else .took false 0

/-- Takes the given text, if it is ahead. -/
def consume (text : Text) : Reader Bool := takeIf text.length (text.isPrefixOf ·)

/-- Raises the complaint. -/
def fail {α : Type} (complaint : Complaint) : Reader α := fun _ => .fault complaint

/-- Complains that something else was expected. -/
def expected {α : Type} (what : Text) : Reader α := fun t => .fault (.unexpected what t.head?)

/-- A text between single quotes. -/
def quoted (text : Text) : Text := "'" ++ text ++ "'"

/-- Takes the given text, and complains when it is not ahead. -/
def expect (text : Text) : Reader Unit := fun t =>
  if text.isPrefixOf t then .took () text.length else .fault (.unexpected (quoted text) t.head?)

end Reader

/-- What a reader finds at a cursor, with the cursor behind it, or its complaint and the place. -/
def Cursor.read {α : Type} (c : Cursor) (reader : Reader α) :
    Except (Complaint × Location) (α × Cursor) :=
  match reader c.ahead with
  | .took value length => .ok (value, c.advanceBy length)
  | .fault complaint => .error (complaint, (c.advanceBy complaint.distance).location)

end GDScript
