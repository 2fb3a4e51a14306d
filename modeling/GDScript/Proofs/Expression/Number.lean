import GDScript.Grammar.Language
import GDScript.Proofs.Expression.Boundary
import GDScript.Proofs.Lexeme.Digits
import GDScript.Proofs.Taking

/-!
# Numbers at a cursor

`Expression.ReadsNumber` lists the ways in which a number can be read at a cursor before a digit: as
digits with a point between them, as `0x` with hexadecimal digits, and otherwise as decimal digits,
each of them as long as they go. Integers that do not fit are complained about. The ways are stated
on what is ahead, and exactly one outcome is left by them, which is that of the grammar
(`Expression.readsNumber_iff`).
-/

namespace GDScript

/-- The run of a class at the start of a text, and what is left behind it. -/
theorem Text.StartsWith.exists_isRun {p : CodeUnit → Bool} {t : Text} (h : t.StartsWith p) :
    ∃ run after : Text, run.IsRun p ∧ after.Avoids p ∧ t = run ++ after := by
  refine ⟨t.takeWhile p, t.dropWhile p, ⟨?_, Text.takeWhile_pos⟩, Text.avoids_dropWhile p t,
    List.takeWhile_append_dropWhile.symm⟩
  cases t with
  | nil => exact Bool.noConfusion h
  | cons u t =>
    have hu : p u = true := h
    rw [List.takeWhile_cons_of_pos hu]
    exact List.cons_ne_nil _ _

namespace Expression

open Grammar

/-- The complaint about an integer that does not fit, raised by the rule for integers. -/
def outOfRange (scope : Scope) (c : Cursor) (raw : Text) : ParseError :=
  Complaint.error ⟨.integerOutOfRange, [("value", .text raw)], [], 0⟩ c.location
    { scope with frames := ⟨"int", c.location⟩ :: scope.frames }

/-- How the reading of an integer ends: at its end, unless it exceeds the signed 64-bit range. -/
def endsInt (scope : Scope) (c : Cursor) (journal : Journal) (literal : IntLiteral) : Outcome Expr :=
  if literal.value ≤ 2 ^ 63 - 1 then
    .finished (.int literal) (c.advanceBy literal.raw.length) journal
  else
    let e := outOfRange scope c literal.raw
    .failed (.parse e) (.raised e :: journal)

/-- What is read of a number at a cursor, with the cursor behind it, or what is wrong. -/
inductive ReadsNumber (scope : Scope) (c : Cursor) (journal : Journal) : Outcome Expr → Prop where
  /-- Digits, a point and digits; no further digit follows. -/
  | float {whole fraction after : Text}
      (hahead : c.ahead = whole ++ CodeUnit.dot :: (fraction ++ after))
      (hwhole : whole.IsRun CodeUnit.isDigit) (hfraction : fraction.IsRun CodeUnit.isDigit)
      (hafter : after.Avoids CodeUnit.isDigit) :
      ReadsNumber scope c journal (.finished
        (.float ⟨Binary64.ofDecimal (Text.value 10 (whole ++ fraction)) (-fraction.length),
          whole ++ CodeUnit.dot :: fraction⟩)
        (c.advanceBy (whole ++ CodeUnit.dot :: fraction).length) journal)
  /-- `0x` and hexadecimal digits; no further one follows. -/
  | hexadecimal {digits after : Text} (hahead : c.ahead = "0x" ++ (digits ++ after))
      (hdigits : digits.IsRun CodeUnit.isHexDigit) (hafter : after.Avoids CodeUnit.isHexDigit) :
      ReadsNumber scope c journal (endsInt scope c journal
        ⟨Nat.ofDigits 16 (digits.reverse.map CodeUnit.digitValue), "0x" ++ digits⟩)
  /-- Decimal digits; no further one follows, and neither of the other two is ahead. -/
  | decimal {digits after : Text} (hahead : c.ahead = digits ++ after)
      (hdigits : digits.IsRun CodeUnit.isDigit) (hafter : after.Avoids CodeUnit.isDigit)
      (hfloat : ¬ c.ahead.StartsFloat) (hhex : ¬ c.ahead.StartsHexadecimal) :
      ReadsNumber scope c journal (endsInt scope c journal
        ⟨Nat.ofDigits 10 (digits.reverse.map CodeUnit.digitValue), digits⟩)

variable {room : Nat} {scope : Scope} {c : Cursor} {journal : Journal}

/-! ### Running the grammar -/

theorem run_number_of_float {literal : FloatLiteral}
    (h : Text.floatLiteral? c.ahead = some literal) :
    run room number scope c journal
      = .finished (.float literal) (c.advanceBy literal.raw.length) journal := by
  have hread : Reader.float c.ahead = .took (some literal) literal.raw.length := by
    rw [Reader.float, h]
  unfold number
  rw [run_bind_of_finished (run_read_of_took hread)]
  exact congrFun (congrFun (congrFun (run_pure room _) scope) _) journal

/-- Where no number with a point is ahead, an integer is read by a rule of its own. -/
theorem run_number_of_int {literal : IntLiteral} (hfloat : Text.floatLiteral? c.ahead = none)
    (hint : Text.intLiteral? c.ahead = some literal) :
    run (room + 1) number scope c journal = endsInt scope c journal literal := by
  have hread : Reader.float c.ahead = .took none 0 := by
    rw [Reader.float, hfloat]
  unfold number
  rw [run_bind_of_finished (run_read_of_took hread), Cursor.advanceBy_zero]
  -- the integer is read within a frame of its own, whose label an error names
  have hcall : run (room + 1) (call Rule.int) scope c journal
      = run room (read Reader.int : Grammar Rule (Option IntLiteral))
          { scope with frames := ⟨"int", c.location⟩ :: scope.frames } c journal := rfl
  unfold endsInt
  by_cases hmax : literal.value ≤ 2 ^ 63 - 1
  · have hread : Reader.int c.ahead = .took (some literal) literal.raw.length := by
      simp only [Reader.int, hint]
      exact if_pos hmax
    rw [if_pos hmax]
    show run (room + 1) (call Rule.int >>= _) scope c journal = _
    rw [run_bind_of_finished (hcall.trans (run_read_of_took hread))]
    rfl
  · have hread : Reader.int c.ahead
        = .fault ⟨.integerOutOfRange, [("value", .text literal.raw)], [], 0⟩ := by
      simp only [Reader.int, hint]
      exact if_neg hmax
    rw [if_neg hmax]
    show run (room + 1) (call Rule.int >>= _) scope c journal = _
    rw [run_bind_of_failed (hcall.trans (run_read_of_fault hread))]
    rfl

/-! ### What is ahead -/

/-- Every way of reading a number is that of the grammar. -/
theorem ReadsNumber.run_eq {outcome : Outcome Expr} (h : ReadsNumber scope c journal outcome) :
    run (room + 1) number scope c journal = outcome := by
  cases h with
  | @float whole fraction after hahead hwhole hfraction hafter =>
    have hfound := Text.floatLiteral?_append (.mk hwhole hfraction) hafter
    rw [List.append_assoc, List.cons_append, ← hahead] at hfound
    exact run_number_of_float hfound
  | @hexadecimal digits after hahead hdigits hafter =>
    have hnone := Text.floatLiteral?_eq_none_iff.mpr (Text.not_startsFloat_hexadecimal (digits ++ after))
    have hfound := Text.intLiteral?_of_endsBefore (.hexadecimal hdigits hafter)
    rw [List.append_assoc, ← hahead] at hfound
    rw [← hahead] at hnone
    rw [← Text.value_eq_ofDigits]
    exact run_number_of_int hnone hfound
  -- the shorter forms are read only where no fraction and no hexadecimal digit goes on
  | @decimal digits after hahead hdigits hafter hfloat hhex =>
    have hnone := Text.floatLiteral?_eq_none_iff.mpr hfloat
    have hfound := Text.intLiteral?_of_endsBefore (.decimal hdigits hafter (hahead ▸ hhex))
    rw [← hahead] at hfound
    rw [← Text.value_eq_ofDigits]
    exact run_number_of_int hnone hfound

/-- Before a digit a number can be read in one of the ways. -/
theorem exists_readsNumber (scope : Scope) (journal : Journal)
    (h : c.ahead.StartsWith CodeUnit.isDigit) :
    ∃ outcome, ReadsNumber scope c journal outcome := by
  -- the longest form that stands there decides
  by_cases hfloat : c.ahead.StartsFloat
  · obtain ⟨whole, u, rest, hwhole, hu, hahead⟩ := hfloat
    have hstart : Text.StartsWith CodeUnit.isDigit (u :: rest) := hu
    obtain ⟨fraction, after, hfraction, hafter, hsplit⟩ := hstart.exists_isRun
    rw [hsplit] at hahead
    exact ⟨_, .float hahead hwhole hfraction hafter⟩
  · by_cases hhex : c.ahead.StartsHexadecimal
    · obtain ⟨u, rest, hu, hahead⟩ := hhex
      have hstart : Text.StartsWith CodeUnit.isHexDigit (u :: rest) := hu
      obtain ⟨digits, after, hdigits, hafter, hsplit⟩ := hstart.exists_isRun
      rw [hsplit] at hahead
      exact ⟨_, .hexadecimal hahead hdigits hafter⟩
    · obtain ⟨digits, after, hdigits, hafter, hahead⟩ := h.exists_isRun
      exact ⟨_, .decimal hahead hdigits hafter hfloat hhex⟩

/--
In every state before a digit in which another rule may be entered, reading a number does what one of
the ways of reading it says, and nothing else.
-/
theorem readsNumber_iff (room : Nat) (scope : Scope) (c : Cursor) (journal : Journal)
    (h : c.ahead.StartsWith CodeUnit.isDigit) (outcome : Outcome Expr) :
    run (room + 1) number scope c journal = outcome ↔ ReadsNumber scope c journal outcome := by
  constructor
  · intro hrun
    obtain ⟨outcome', hreads⟩ := exists_readsNumber scope journal h
    have hsame : outcome' = outcome := hreads.run_eq.symm.trans hrun
    rwa [hsame] at hreads
  · exact ReadsNumber.run_eq

/-- One more than the greatest integer, before a sign. -/
theorem readsNumber_iff_tooGreat :
    (Cursor.ofText "0x8000000000000000+1").ahead.StartsWith CodeUnit.isDigit ∧
    ReadsNumber ⟨[], 0, 512⟩ (Cursor.ofText "0x8000000000000000+1") []
      (.failed
        (.parse (outOfRange ⟨[], 0, 512⟩ (Cursor.ofText "0x8000000000000000+1")
          "0x8000000000000000"))
        [.raised (outOfRange ⟨[], 0, 512⟩ (Cursor.ofText "0x8000000000000000+1")
          "0x8000000000000000")]) := by
  have hstarts : (Cursor.ofText "0x8000000000000000+1").ahead.StartsWith CodeUnit.isDigit := by
    decide
  exact ⟨hstarts, (readsNumber_iff 0 _ _ _ hstarts _).mp rfl⟩

end Expression

end GDScript
