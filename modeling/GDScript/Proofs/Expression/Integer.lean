import GDScript.Proofs.Expression.Number
import GDScript.Proofs.Expression.RoundTrip

/-!
# Integers with a sign

A sign is an operator and the literal behind it a magnitude, so the range of integers that can be
written is decided by the literals alone: every signed 64-bit integer can be written, in decimal and
in hexadecimal and with any number of zeros in front, except the least one, the magnitude of which
exceeds the greatest literal (`Script.reads_integer_iff`).

`Grammar.Raises` is the counterpart of `Grammar.Takes` for what goes wrong: it names the complaint
that a grammar fails with and the place of it.
-/

namespace GDScript

namespace Grammar

variable {R : Type → Type} [RuleSet R] {α β : Type} {room n : Nat}

/-! ### What a grammar complains about -/

/--
Wherever the text is ahead, inside `n` brackets, the grammar fails with the complaint, which is about
a place of the text.
-/
def Raises (room n : Nat) (g : Grammar R α) (t : Text) (complaint : Complaint) : Prop :=
  ∀ (scope : Scope) (cursor : Cursor) (journal : Journal),
    scope.nesting = n → cursor.ahead = t → ∃ scope' journal', run room g scope cursor journal =
      .failed (.parse (complaint.error (cursor.advanceBy complaint.distance).location scope'))
        journal'

variable {complaint : Complaint} {t : Text}

theorem Raises.bind {g : Grammar R α} {f : α → Grammar R β} (h : Raises room n g t complaint) :
    Raises room n (g >>= f) t complaint := by
  intro scope cursor journal hn ha
  obtain ⟨scope', journal', hrun⟩ := h scope cursor journal hn ha
  exact ⟨scope', journal', run_bind_of_failed hrun⟩

/-- The place of a complaint is as far ahead as the second grammar says, behind what is taken. -/
theorem Takes.raises_bind {g : Grammar R α} {f : α → Grammar R β} {s rest : Text} {P : α → Prop}
    (hg : Takes room n g s rest P) (hf : ∀ v, P v → Raises room n (f v) rest complaint) :
    Raises room n (g >>= f) (s ++ rest) (complaint.shift s.length) := by
  intro scope cursor journal hn ha
  obtain ⟨v, journal', hrun, hv⟩ := hg scope cursor journal hn ha
  obtain ⟨scope', journal'', hrun'⟩ := hf v hv scope _ journal' hn (ahead_advanceBy_length ha)
  refine ⟨scope', journal'', ?_⟩
  rw [run_bind_of_finished hrun, hrun', Cursor.advanceBy_advanceBy, Nat.add_comm]
  rfl

/-- The first grammar only looks. -/
theorem Takes.raises_look_bind {g : Grammar R α} {f : α → Grammar R β} {P : α → Prop}
    (hg : Takes room n g [] t P) (hf : ∀ v, P v → Raises room n (f v) t complaint) :
    Raises room n (g >>= f) t complaint :=
  hg.raises_bind hf

theorem raises_call {rule : R α} (h : Raises room n (RuleSet.body rule) t complaint) :
    Raises (room + 1) n (call rule) t complaint := by
  intro scope cursor journal hn ha
  rw [run_call]
  exact h _ cursor journal hn ha

end Grammar

namespace Expression

open Grammar

variable {room n : Nat} {literal : IntLiteral} {rest : Text}

/-! ### Magnitudes that are too great -/

/-- The complaint about an integer that does not fit. -/
def tooGreat (literal : IntLiteral) : Complaint :=
  ⟨.integerOutOfRange, [("value", .text literal.raw)], [], 0⟩

theorem raises_number (h : literal.IsNumeral) (hmax : Reader.greatestInt < literal.value) :
    Raises (room + 1) n number literal.raw (tooGreat literal) := by
  intro scope cursor journal _ ha
  have hfloat := Text.floatLiteral?_eq_none h (Text.avoids_nil _) fun r hr => nomatch hr
  have hint := Text.intLiteral?_append h (Text.avoids_nil _)
  rw [List.append_nil, ← ha] at hfloat hint
  have hmax' : ¬ literal.value ≤ 2 ^ 63 - 1 := Nat.not_le_of_lt hmax
  have hrun : run (room + 1) number scope cursor journal = endsInt scope cursor journal literal :=
    run_number_of_int hfloat hint
  rw [endsInt, if_neg hmax'] at hrun
  exact ⟨_, _, hrun⟩

theorem raises_primary (h : literal.IsNumeral) (hmax : Reader.greatestInt < literal.value) :
    Raises (room + 2) n primary literal.raw (tooGreat literal) := by
  have hstarts : literal.raw.StartsWith CodeUnit.isDigit := h.startsWith
  have hnumber : ∀ room, Raises (room + 1) n number literal.raw (tooGreat literal) :=
    fun room => raises_number h hmax
  cases hraw : literal.raw with
  | nil =>
    rw [hraw] at hstarts
    exact Bool.noConfusion hstarts
  | cons u t =>
    rw [hraw] at hstarts hnumber
    have hu : u.isDigit = true := hstarts
    -- a digit opens no parenthesis and no other kind of value
    have hnone : List.isPrefixOf ("(" : Text) (u :: t) = false :=
      Text.isPrefixOf_cons_eq_false (beq_eq_false_of_class hu (by decide))
    apply Takes.raises_look_bind (takes_check "(")
    intro found hfound
    rw [hfound, hnone]
    apply raises_call
    apply Takes.raises_look_bind (takes_look (f := List.head?) (P := (· = some u)) rfl)
    intro found hfound
    rw [hfound]
    show Raises (room + 1) n (valueFrom u) (u :: t) (tooGreat literal)
    rw [valueFrom_of_isDigit hu]
    exact hnumber room

/-- Neither a sign nor a word stands where an integer does. -/
theorem raises_unary (h : literal.IsNumeral) (hmax : Reader.greatestInt < literal.value) :
    Raises (room + 2) n unary literal.raw (tooGreat literal) := by
  have hsign : literal.raw.Avoids (List.contains ("-+!" : Text)) := by
    refine h.startsWith.avoids fun u hu => ?_
    have hmem : u ∈ ([0x2D, 0x2B, 0x21] : Text) := List.contains_iff_mem.mp hu
    simp only [List.mem_cons, List.not_mem_nil, or_false] at hmem
    rcases hmem with rfl | rfl | rfl <;> rfl
  have hname : literal.raw.startsName = false :=
    h.startsWith.startsName_eq_false fun u hu => Phrase.isDigit_eq_false_of_isIdentifierStart hu
  have hword : Text.startsWord "not" literal.raw = false :=
    Text.startsWord_eq_false (by decide) hname
  apply Takes.raises_look_bind (takes_operator_nothing (Spelling.find?_unary_eq_none hsign hword))
  intro found hfound
  rw [hfound]
  exact (raises_primary h hmax).bind

/-- A gap may follow a sign, but none has to. -/
theorem raises_unary_minus {complaint : Complaint} {t : Text}
    (hstart : t.StartsWith CodeUnit.isDigit) (h : Raises room n unary t complaint) :
    Raises (room + 1) n unary ("-" ++ t) (complaint.shift 1) := by
  -- the sign stands in front of a digit, so it is not read as `-=`
  have hset : t.Avoids (· == 0x3D) := hstart.avoids fun u hu => by rw [beq_iff_eq.mp hu]; rfl
  have hgap : t.Avoids (CodeUnit.startsGap (n != 0)) := by
    refine hstart.avoids fun u hu => ?_
    have hnot := CodeUnit.isIdentifierChar_eq_false_of_startsGap hu
    rw [CodeUnit.isIdentifierChar, Bool.or_eq_false_iff] at hnot
    exact hnot.2
  have hfind := Spelling.find?_unary_append (s := .sign "-" .minus) (by decide)
    (fun hword => absurd hword (by decide)) hset
  apply Takes.raises_bind (takes_operator hfind)
  intro found hfound
  rw [hfound]
  apply Takes.raises_look_bind (takes_gap (Text.isGap_nil _) hgap)
  intro _ _
  exact raises_call h.bind

/-- What an operand complains about is what the expression that it starts complains about. -/
theorem raises_expr {complaint : Complaint} {t : Text} (h : Raises room n unary t complaint) :
    Raises (room + 1) n expr t complaint := by
  have hlevel : ∀ level ≤ 2, Raises room n (atLevel (level + 1)) t complaint →
      Raises room n (atLevel level) t complaint := by
    intro level hle hnext
    rw [atLevel_eq hle]
    exact hnext.bind
  apply raises_call
  exact hlevel 0 (by omega) (hlevel 1 (by omega) (hlevel 2 (by omega) h))

/-! ### Magnitudes that fit -/

/-- Nothing goes on behind the end of a text. -/
theorem endsExpr_nil (b : Bool) (level : Nat) : Text.EndsExpr b level [] := by
  apply endsExpr_of_avoids_joins (Text.avoids_nil _)
  intro k hk _
  rw [List.drop_nil]
  exact Spelling.find?_binaryTable_eq_none (Text.avoids_nil _) hk

theorem takes_expr_int (h : literal.IsNumeral) (hmax : literal.value ≤ Reader.greatestInt) :
    Takes (room + 4) n expr literal.raw [] (· = .int literal) := by
  have hwritten : Phrase.Written ["not"] (room + 3) (.expr (n != 0) 6 (.int literal)) literal.raw :=
    .int h hmax
  exact takes_written List.mem_cons_self (hwritten.looser (by omega) (by omega)) (endsExpr_nil _ _)

theorem takes_expr_minus_int (h : literal.IsNumeral) (hmax : literal.value ≤ Reader.greatestInt) :
    Takes (room + 4) n expr ("-" ++ literal.raw) [] (· = .unary .minus (.int literal)) := by
  have hmagnitude : Phrase.Written ["not"] (room + 2) (.expr (n != 0) 6 (.int literal)) literal.raw :=
    .int h hmax
  have hrow : .sign "-" .minus ∈ Spelling.unary := by decide
  have hwritten := Phrase.Written.unary hrow (Text.isGap_nil (n != 0))
    (fun hword => absurd hword (by decide)) (hmagnitude.looser (by omega) (by omega))
  rw [List.append_nil] at hwritten
  exact takes_written List.mem_cons_self (hwritten.looser (by omega) (by omega)) (endsExpr_nil _ _)

end Expression

/-! ### The range of integers -/

/-- The text of an integer, from the text of its magnitude. -/
def Text.signed (v : Int) (magnitude : Text) : Text := if v < 0 then "-" ++ magnitude else magnitude

/-- The tree that denotes an integer, from the literal of its magnitude. -/
def Expr.signed (v : Int) (magnitude : IntLiteral) : Expr :=
  if v < 0 then .unary .minus (.int magnitude) else .int magnitude

namespace Script

open Grammar Expression

variable {depth : Option Int} {s : Text}

theorem exists_run_of_takes {e : Expr} (hdepth : 4 ≤ depthLimit depth)
    (h : ∀ room, Takes (room + 4) 0 expr s [] (· = e)) :
    ∃ journal, run s depth expr = .finished e ((Cursor.ofText s).advanceBy s.length) journal := by
  obtain ⟨room, hroom⟩ : ∃ room, (depthLimit depth).toNat = room + 4 :=
    ⟨(depthLimit depth).toNat - 4, by omega⟩
  obtain ⟨_, journal, hrun, rfl⟩ := h room ⟨[], 0, depthLimit depth⟩ (Cursor.ofText s) [] rfl
    (List.append_nil s).symm
  unfold run start
  rw [hroom]
  exact ⟨journal, hrun⟩

theorem exists_run_of_raises {complaint : Complaint} (hdepth : 4 ≤ depthLimit depth)
    (h : ∀ room, Raises (room + 4) 0 expr s complaint) :
    ∃ scope journal, run s depth expr = .failed
      (.parse (complaint.error ((Cursor.ofText s).advanceBy complaint.distance).location scope))
      journal := by
  obtain ⟨room, hroom⟩ : ∃ room, (depthLimit depth).toNat = room + 4 :=
    ⟨(depthLimit depth).toNat - 4, by omega⟩
  obtain ⟨scope, journal, hrun⟩ := h room ⟨[], 0, depthLimit depth⟩ (Cursor.ofText s) [] rfl rfl
  unfold run start
  rw [hroom]
  exact ⟨scope, journal, hrun⟩

/--
Every signed 64-bit integer has decimal and hexadecimal texts with any number of zeros in front. From
each of its texts, read to the end, comes the tree that denotes it, unless it is the least one; then
the magnitude is complained about, behind the sign.
-/
theorem reads_integer_iff (depth : Option Int) (hdepth : 4 ≤ depthLimit depth) (v : Int)
    (hleast : -2 ^ 63 ≤ v) (hgreatest : v ≤ 2 ^ 63 - 1) :
    (∀ zeros : Nat,
      IntLiteral.IsNumeral ⟨v.natAbs, List.replicate zeros 0x30 ++ Text.ofNat v.natAbs⟩ ∧
      IntLiteral.IsNumeral
        ⟨v.natAbs, ("0x" : Text) ++ (List.replicate zeros 0x30 ++ Text.numeral 16 v.natAbs)⟩) ∧
    ∀ literal : IntLiteral, literal.IsNumeral → literal.value = v.natAbs →
      ((∃ journal, run (Text.signed v literal.raw) depth expr = .finished (Expr.signed v literal)
          ((Cursor.ofText (Text.signed v literal.raw)).advanceBy (Text.signed v literal.raw).length)
          journal) ↔ v ≠ -2 ^ 63) ∧
      (v = -2 ^ 63 → ∃ scope journal, run (Text.signed v literal.raw) depth expr
        = .failed (.parse ((tooGreat literal).error ⟨1, 2, 1⟩ scope)) journal) := by
  constructor
  · intro zeros
    exact ⟨IntLiteral.isNumeral_decimal zeros _, IntLiteral.isNumeral_hexadecimal zeros _⟩
  intro literal hliteral hvalue
  have hgreat : Reader.greatestInt = 2 ^ 63 - 1 := rfl
  by_cases hv : v = -2 ^ 63
  · -- the magnitude of the least integer is one more than the greatest literal
    have hmax : Reader.greatestInt < literal.value := by omega
    have hfailed := exists_run_of_raises hdepth fun room =>
      raises_expr (raises_unary_minus hliteral.startsWith (raises_unary hliteral hmax))
    have hnegative : v < 0 := by omega
    rw [Text.signed, if_pos hnegative]
    constructor
    · obtain ⟨scope, journal, hfailed⟩ := hfailed
      rw [hfailed]
      simp [hv]
    · intro _
      exact hfailed
  · have hmax : literal.value ≤ Reader.greatestInt := by omega
    have hplain := exists_run_of_takes hdepth fun _ => takes_expr_int hliteral hmax
    have hminus := exists_run_of_takes hdepth fun _ => takes_expr_minus_int hliteral hmax
    constructor
    · constructor
      · intro _
        exact hv
      · intro _
        unfold Text.signed Expr.signed
        split
        · exact hminus
        · exact hplain
    · intro hleast'
      exact absurd hleast' hv

/-- The least integer in decimal. -/
theorem reads_integer_iff_least :
    (4 ≤ depthLimit none ∧ -2 ^ 63 ≤ (-2 ^ 63 : Int) ∧ (-2 ^ 63 : Int) ≤ 2 ^ 63 - 1) ∧
    IntLiteral.IsNumeral ⟨2 ^ 63, "9223372036854775808"⟩ ∧
    ∃ scope journal, run "-9223372036854775808" none expr
      = .failed (.parse ((tooGreat ⟨2 ^ 63, "9223372036854775808"⟩).error ⟨1, 2, 1⟩ scope)) journal := by
  have hdepth : 4 ≤ depthLimit none := by decide
  have hleast : -2 ^ 63 ≤ (-2 ^ 63 : Int) := Int.le_refl _
  have hgreatest : (-2 ^ 63 : Int) ≤ 2 ^ 63 - 1 := by decide
  have hrun : Text.IsRun CodeUnit.isDigit "9223372036854775808" := by decide
  have hliteral : IntLiteral.IsNumeral ⟨2 ^ 63, "9223372036854775808"⟩ := .decimal hrun
  exact ⟨⟨hdepth, hleast, hgreatest⟩, hliteral,
    ((reads_integer_iff none hdepth (-2 ^ 63) hleast hgreatest).2 _ hliteral rfl).2 rfl⟩

end Script

end GDScript
