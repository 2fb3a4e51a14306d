import GDScript.Proofs.Expression.Level
import Mathlib.Data.List.Find

/-!
# Values

`Expression.value` looks at one unit to tell the values apart (`valueFrom`); each kind of value is
then read back from its spelling, where the text that follows does not go on with it.
-/

namespace GDScript.Expression

open Grammar

variable {room n : Nat} {b : Bool} {rest : Text}

/-! ### Telling values apart -/

/-- A value that starts with the unit. -/
def valueFrom (u : CodeUnit) : Grammar Rule Expr :=
  if u == 0x5B then call .array
  else if u == 0x7B then call .object
  else if u == CodeUnit.dollar then call .nodePath
  else if u.isQuote then call .string
  else if u.isDigit then number
  else if u.isIdentifierStart then do
    match ← read constant with
    | some found => return found
    | none => identOrCall
  else expected "expression"

/-- The first unit tells which kind of value is read. -/
theorem takes_value {u : CodeUnit} {t : Text} {P : Expr → Prop}
    (h : Takes room n (valueFrom u) (u :: t) rest P) : Takes room n value (u :: t) rest P := by
  refine Takes.look_bind (takes_look (P := (· = some u)) rfl) fun found hfound => ?_
  rw [hfound]
  exact h

/-- A value that does not start with a parenthesis, as a rule of its own. -/
theorem takes_primary_value {u : CodeUnit} {t : Text} {P : Expr → Prop} (hu : u ≠ 0x28)
    (h : Takes room n (valueFrom u) (u :: t) rest P) :
    Takes (room + 1) n primary (u :: t) rest P := by
  have hnone : List.isPrefixOf ("(" : Text) (u :: t ++ rest) = false :=
    Text.isPrefixOf_cons_eq_false (beq_false_of_ne hu)
  refine Takes.look_bind (takes_check "(") fun found hfound => ?_
  rw [hfound, hnone]
  exact takes_call (takes_value h)

/-- A unit of a class is none that the class leaves out. -/
theorem beq_eq_false_of_class {p : CodeUnit → Bool} {u c : CodeUnit} (hu : p u = true)
    (hc : p c = false) : (u == c) = false := by
  rw [beq_eq_false_iff_ne]
  rintro rfl
  rw [hc] at hu
  exact Bool.noConfusion hu

/-- A letter starts a constant or a name. -/
theorem valueFrom_of_isIdentifierStart {u : CodeUnit} (hu : u.isIdentifierStart = true) :
    valueFrom u = (do
      match ← read constant with
      | some found => return found
      | none => identOrCall) := by
  -- the signs, the quotes and the digits are asked for first, and a letter is none of them
  have hne : ∀ c : CodeUnit, c.isIdentifierStart = false → (u == c) = false :=
    fun c hc => beq_eq_false_of_class hu hc
  rw [valueFrom, hne _ (by decide), hne _ (by decide), hne _ (by decide),
    CodeUnit.isQuote_eq_false_of_isIdentifierStart hu,
    Phrase.isDigit_eq_false_of_isIdentifierStart hu, hu]
  rfl

/-- A digit starts a number. -/
theorem valueFrom_of_isDigit {u : CodeUnit} (hu : u.isDigit = true) : valueFrom u = number := by
  have hne : ∀ c : CodeUnit, c.isDigit = false → (u == c) = false :=
    fun c hc => beq_eq_false_of_class hu hc
  rw [valueFrom, hne _ (by decide), hne _ (by decide), hne _ (by decide), CodeUnit.isQuote,
    hne _ (by decide), hne _ (by decide), hu]
  rfl

/-- A text that starts with a unit of a class that has no parenthesis, by its first unit. -/
theorem takes_primary_of_startsWith {s : Text} {p : CodeUnit → Bool} {P : Expr → Prop}
    (hs : s.StartsWith p) (hp : p 0x28 = false)
    (h : ∀ u, p u = true → Takes room n (valueFrom u) s rest P) :
    Takes (room + 1) n primary s rest P := by
  cases s with
  | nil => exact Bool.noConfusion hs
  | cons u t =>
    have hu : p u = true := hs
    refine takes_primary_value ?_ (h u hu)
    rintro rfl
    rw [hp] at hu
    exact Bool.noConfusion hu

/-! ### Constants and names -/

/-- A name is a constant if the table has it. -/
theorem constant?_append {name : Text} (hname : name.IsName)
    (hrest : rest.Avoids CodeUnit.isIdentifierChar) :
    constant? (name ++ rest) = Expr.constants.find? fun c => decide (name = c.1) := by
  refine List.find?_congr fun c hc => ?_
  rw [Bool.eq_iff_iff, Text.startsWord_append_iff (Expr.isName_of_mem_constants c hc) hname hrest,
    decide_eq_true_iff]

/-- Each constant of the table is found by its word. -/
theorem find?_constants : ∀ c ∈ Expr.constants,
    Expr.constants.find? (fun d => decide (c.1 = d.1)) = some c := by
  intro c hc
  simp only [Expr.constants, List.mem_cons, List.not_mem_nil, or_false] at hc
  rcases hc with rfl | rfl | rfl | rfl | rfl <;> rfl

/-- A constant is read as what it stands for. -/
theorem takes_constant {c : Text × Expr} (hc : c ∈ Expr.constants)
    (hrest : rest.EndsExpr b 6) : Takes (room + 1) n primary c.1 rest (· = c.2) := by
  have hname := Expr.isName_of_mem_constants c hc
  refine takes_primary_of_startsWith hname.1 rfl fun u hu => ?_
  rw [valueFrom_of_isIdentifierStart hu]
  have hread : constant (c.1 ++ rest) = .took (some c.2) c.1.length := by
    rw [constant, constant?_append hname hrest.word, find?_constants c hc]
  refine Takes.bind_done (takes_read (P := (· = some c.2)) hread rfl) fun found hfound => ?_
  rw [hfound]
  exact takes_pure rfl

/-- Where a name stands that is no constant, a name or a call is read. -/
theorem takes_primary_name {name s : Text} {P : Expr → Prop} (hname : name.IsName)
    (hconstant : ∀ c ∈ Expr.constants, c.1 ≠ name)
    (hs : (s ++ rest).Avoids CodeUnit.isIdentifierChar)
    (h : Takes room n identOrCall (name ++ s) rest P) :
    Takes (room + 1) n primary (name ++ s) rest P := by
  have hstart : (name ++ s).StartsWith CodeUnit.isIdentifierStart :=
    Text.StartsWith.append hname.1 s
  refine takes_primary_of_startsWith hstart rfl fun u hu => ?_
  rw [valueFrom_of_isIdentifierStart hu]
  have hfind : Expr.constants.find? (fun c => decide (name = c.1)) = none := by
    rw [List.find?_eq_none]
    intro c hc
    simpa using (hconstant c hc).symm
  have hread : constant (name ++ s ++ rest) = .took none 0 := by
    rw [constant, List.append_assoc, constant?_append hname hs, hfind]
  refine Takes.look_bind (takes_read (P := (· = none)) hread rfl) fun found hfound => ?_
  rw [hfound]
  exact h

/-- A name is read up to where it ends. -/
theorem takes_name {name : Text} (hname : name.IsName)
    (hrest : rest.Avoids CodeUnit.isIdentifierChar) :
    Takes room n Expression.name name rest (· = name) :=
  takes_require (identifier_append hname hrest)

/-- A name that no parenthesis follows. -/
theorem takes_ident {name : Text} (hname : name.IsName)
    (hrest : rest.Avoids CodeUnit.isIdentifierChar) (hcall : rest.Avoids (· == 0x28)) :
    Takes room n identOrCall name rest (· = .ident name) := by
  refine Takes.bind_done (takes_name hname hrest) fun found hfound => ?_
  have hnone : List.isPrefixOf ("(" : Text) rest = false := Text.isPrefixOf_cons_eq_false hcall
  refine Takes.look_bind (takes_check "(") fun parenthesis hparenthesis => ?_
  rw [hparenthesis, List.nil_append, hnone, hfound]
  exact takes_pure rfl

/-- A name with its arguments. -/
theorem takes_functionCall {name t : Text} {es : List Expr} (hname : name.IsName)
    (ht : t.StartsWith (· == 0x28)) (hes : Takes room n callArguments t rest (· = es)) :
    Takes (room + 1) n identOrCall (name ++ t) rest (· = .call name es) := by
  have hword : (t ++ rest).Avoids CodeUnit.isIdentifierChar := by
    refine (ht.append rest).avoids fun u hu => ?_
    exact beq_eq_false_of_class hu rfl
  refine Takes.bind (takes_name hname hword) fun found hfound => ?_
  -- the arguments start with the parenthesis that makes the name a call
  have hopen : List.isPrefixOf ("(" : Text) (t ++ rest) = true := by
    cases t with
    | nil => exact Bool.noConfusion ht
    | cons u t =>
      rw [beq_iff_eq.mp (show (u == 0x28) = true from ht)]
      rfl
  refine Takes.look_bind (takes_check "(") fun parenthesis hparenthesis => ?_
  rw [hparenthesis, hopen, hfound]
  refine takes_call (Takes.bind_done hes fun args hargs => ?_)
  rw [hargs]
  exact takes_pure rfl

/-! ### Numbers, strings and node paths -/

/-- An integer is no float, since no fraction follows it. -/
theorem takes_int {literal : IntLiteral} (h : literal.IsNumeral)
    (hmax : literal.value ≤ Reader.greatestInt) (hrest : rest.EndsExpr b 6) :
    Takes (room + 2) n primary literal.raw rest (· = .int literal) := by
  refine takes_primary_of_startsWith h.startsWith rfl fun u hu => ?_
  rw [valueFrom_of_isDigit hu]
  have hfloat : Reader.float (literal.raw ++ rest) = .took none 0 := by
    rw [Reader.float, Text.floatLiteral?_eq_none h hrest.word hrest.fraction]
  have hint : Reader.int (literal.raw ++ rest) = .took (some literal) literal.raw.length := by
    simp only [Reader.int, Text.intLiteral?_append h hrest.word, hmax, if_true]
  refine Takes.look_bind (takes_read (P := (· = none)) hfloat rfl) fun found hfound => ?_
  rw [hfound]
  refine Takes.bind_done (P := (· = some literal)) (takes_call (takes_read hint rfl))
    fun found hfound => ?_
  rw [hfound]
  exact takes_pure rfl

/-- A float is tried before an integer. -/
theorem takes_float {literal : FloatLiteral} (h : literal.IsNumeral)
    (hrest : rest.EndsExpr b 6) :
    Takes (room + 1) n primary literal.raw rest (· = .float literal) := by
  refine takes_primary_of_startsWith h.startsWith rfl fun u hu => ?_
  rw [valueFrom_of_isDigit hu]
  have hfloat : Reader.float (literal.raw ++ rest) = .took (some literal) literal.raw.length := by
    rw [Reader.float, Text.floatLiteral?_append h
      (hrest.word.imp fun _ => CodeUnit.isIdentifierChar_of_isDigit)]
  refine Takes.bind_done (takes_read (P := (· = some literal)) hfloat rfl) fun found hfound => ?_
  rw [hfound]
  exact takes_pure rfl

/-- A string is read up to its closing quote. -/
theorem takes_string {literal : StringLiteral} (h : literal.IsValid) :
    Takes (room + 2) n primary literal.write rest (· = .string literal) := by
  have hbody : Takes room n Expression.string literal.write rest (· = .string literal) := by
    refine Takes.bind_done (takes_require (Reader.string_append h rest)) fun found hfound => ?_
    rw [hfound]
    exact takes_pure rfl
  have hvalue : valueFrom literal.quote.unit = call .string := by
    cases literal.quote <;> rfl
  refine takes_primary_value ?_ (hvalue ▸ takes_call hbody)
  cases literal.quote <;> decide

/-- A path is read up to where its last name ends. -/
theorem takes_nodePath {path : Text} (h : path.IsNodePath) (hrest : rest.EndsExpr b 6) :
    Takes (room + 2) n primary path rest (· = .nodePath path) := by
  have hbody : Takes room n Expression.nodePath path rest (· = .nodePath path) := by
    refine Takes.bind_done (takes_require (Reader.nodePath_append h hrest.path_chain))
      fun found hfound => ?_
    rw [hfound]
    exact takes_pure rfl
  have hdollar : path.StartsWith (· == CodeUnit.dollar) := by cases h <;> rfl
  refine takes_primary_of_startsWith hdollar rfl fun u hu => ?_
  rw [beq_iff_eq.mp hu]
  exact takes_call hbody

end GDScript.Expression
