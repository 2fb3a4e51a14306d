import GDScript.Grammar.Parser
import GDScript.Reader.Layout

/-!
# Grammars

A grammar is a description of what to read, built from readers by the constructors of `Grammar`. It
refers to named rules, an indexed family `R`, by `Grammar.call`; `RuleSet` gives every rule its
label and the grammar that is its body.

Recursion goes through rules only, and entering a rule uses up one unit of room. `Grammar.run` is
therefore structural: on the room, and for each amount of room on the grammar. A rule for which
there is no room left fails with an error that no alternative recovers from.
-/

namespace GDScript

/-- A description of what to read, over the rules `R`. -/
inductive Grammar (R : Type → Type) : Type → Type 1 where
  /-- Nothing. -/
  | pure {α : Type} (value : α) : Grammar R α
  /-- One grammar and, with what it found, another one. -/
  | bind {α β : Type} (g : Grammar R α) (f : α → Grammar R β) : Grammar R β
  /-- What a reader finds; its complaint is raised. -/
  | read {α : Type} (reader : Reader α) : Grammar R α
  /-- Nothing, but a complaint is noted. -/
  | note (complaint : Text → Complaint) : Grammar R Unit
  /-- The place of the cursor. -/
  | here : Grammar R Location
  /-- The number of open brackets. -/
  | nesting : Grammar R Nat
  /-- The end of the run, because of a defect. -/
  | abort {α : Type} (defect : Defect) : Grammar R α
  /-- A rule. -/
  | call {α : Type} (rule : R α) : Grammar R α
  /-- A grammar as the body of a rule with the given label. -/
  | within {α : Type} (label : Text) (g : Grammar R α) : Grammar R α
  /-- A grammar inside a pair of brackets. -/
  | bracketed {α : Type} (g : Grammar R α) : Grammar R α
  /-- A grammar, or nothing when it fails recoverably. -/
  | attempt {α : Type} (g : Grammar R α) : Grammar R (Option α)
  /-- The first of two grammars that does not fail recoverably. -/
  | orElse {α : Type} (g h : Grammar R α) : Grammar R α
  /-- A grammar, going back to where it started when what it found is to be forgotten. -/
  | rewindIf {α : Type} (forget : α → Bool) (g : Grammar R α) : Grammar R α
  /-- Turns until one asks for the end. -/
  | iterate {σ : Type} (turn : σ → Grammar R (Next σ)) (state : σ) : Grammar R σ
  /-- The failure that got furthest, if it lies at the cursor or after it; otherwise a grammar. -/
  | blame {α : Type} (otherwise : Grammar R α) : Grammar R α
  /-- A grammar as a watched step. -/
  | watch (step : Text) (g : Grammar R Finding) : Grammar R Finding

/-- The labels and the bodies of rules. -/
class RuleSet (R : Type → Type) where
  /-- The name under which a rule is reported. -/
  label {α : Type} : R α → Text
  /-- What a rule reads. -/
  body {α : Type} : R α → Grammar R α

namespace Grammar

variable {R : Type → Type} {α : Type}

instance : Monad (Grammar R) where
  pure := .pure
  bind := .bind

/-! ### Running a grammar -/

/-- A way to run the body of a rule. -/
abbrev Entry (R : Type → Type) := (β : Type) → Text → Grammar R β → Parser β

/-- Runs a grammar whose rules are entered by `enter`. -/
def runWith [RuleSet R] (enter : Entry R) : {α : Type} → Grammar R α → Parser α
  | _, .pure value => Parser.pure value
  | _, .bind g f => Parser.bind (runWith enter g) fun value => runWith enter (f value)
  | _, .read reader => Parser.read reader
  | _, .note complaint => Parser.note complaint
  | _, .here => Parser.here
  | _, .nesting => Parser.nesting
  | _, .abort defect => Parser.abort defect
  -- only a rule and a label of their own enter a frame
  | _, .call rule => enter _ (RuleSet.label rule) (RuleSet.body rule)
  | _, .within label g => enter _ label g
  | _, .bracketed g => Parser.bracketed (runWith enter g)
  | _, .attempt g => Parser.attempt (runWith enter g)
  | _, .orElse g h => Parser.orElse (runWith enter g) (runWith enter h)
  | _, .rewindIf forget g => Parser.rewindIf forget (runWith enter g)
  | _, .iterate turn state => Parser.iterate (fun state => runWith enter (turn state)) state
  | _, .blame otherwise => Parser.blame (runWith enter otherwise)
  | _, .watch step g => Parser.watch step (runWith enter g)
termination_by structural _ g => g

/-- Runs a grammar with room for so many active rules. -/
def run [RuleSet R] : (room : Nat) → {α : Type} → Grammar R α → Parser α
  | 0, _, g => runWith (fun _ _ _ => Parser.tooDeep) g
  | room + 1, _, g => runWith (fun _ label body => Parser.within label (run room body)) g

/-- The depth limit when none is asked for. -/
def defaultDepth : Nat := 512

/-- The greatest depth limit. -/
def greatestDepth : Nat := 1024

/-- The depth limit that a request comes to: lowered to the greatest one, otherwise kept. -/
def depthLimit (requested : Option Int) : Int := min (requested.getD defaultDepth) greatestDepth

/-- Runs a grammar from a cursor, outside of all rules, under a depth limit. -/
def start [RuleSet R] (limit : Int) (nesting : Nat) (cursor : Cursor) (g : Grammar R α) :
    Outcome α :=
  run limit.toNat g ⟨[], nesting, limit⟩ cursor []

/-! ### Common pieces -/

/-- Looks at the text ahead. -/
def look (f : Text → α) : Grammar R α := read (Reader.look f)

/-- Complains that something else was expected at the cursor. -/
def expected (what : Text) : Grammar R α := read (Reader.expected what)

/-- Whether the given text is ahead. -/
def check (text : Text) : Grammar R Bool := look (text.isPrefixOf ·)

/-- Takes the given text, if it is ahead. -/
def consume (text : Text) : Grammar R Bool := read (Reader.consume text)

/-- Takes the given text. -/
def expect (text : Text) : Grammar R Unit := read (Reader.expect text)

/-- Takes the given word. -/
def expectKeyword (word : Text) : Grammar R Unit := read (Reader.expectKeyword word)

/-- Takes spaces and tabs. -/
def skipSpaces : Grammar R Unit := read Reader.skipSpaces

/-- Takes the gap before the next token, which spans lines inside brackets only. -/
def gap : Grammar R Unit := do
  let open_ ← nesting
  if open_ = 0 then skipSpaces else read Reader.skipLayout

/-- A grammar that may find nothing, and then leaves the cursor where it was. -/
def optional (g : Grammar R (Option α)) : Grammar R (Option α) := rewindIf Option.isNone g

/-- What a reader may find, and a complaint when it finds nothing. -/
def require (what : Text) (reader : Reader (Option α)) : Grammar R α := do
  match ← read reader with
  | some found => return found
  | none => expected what

/--
The first alternative that does not fail recoverably. When all do, the failure that got furthest is
raised, the first one of several that got equally far.
-/
def choice : List (Grammar R α) → Grammar R α
  | [] => abort .emptyChoice
  | [g] => g
  | g :: rest => orElse g (choice rest)

/-- Items with commas between them. -/
def commaSeparated (item : Grammar R α) : Grammar R (List α) := do
  let items ← iterate (fun items => do
    let found ← item
    gap
    if ← consume "," then
      gap
      return .again (found :: items)
    else return .done (found :: items)) []
  return items.reverse

/-- Items in parentheses, with commas between them. -/
def parenthesized (item : Grammar R α) : Grammar R (List α) := do
  expect "("
  bracketed do
    gap
    if ← consume ")" then return []
    else
      let items ← commaSeparated item
      expect ")"
      return items

/-- Items in brackets, of which the opening one has been read; a comma may follow the last item. -/
def itemsUntil (closer : Text) (item : Grammar R α) : Grammar R (List α) :=
  bracketed do
    gap
    let items ← iterate (fun items => do
      if ← consume closer then return .done items
      else
        let found ← item
        gap
        if ← consume "," then
          gap
          return .again (found :: items)
        else
          expect closer
          return .done (found :: items)) []
    return items.reverse

end Grammar

end GDScript
