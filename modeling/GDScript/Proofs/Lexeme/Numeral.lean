import GDScript.Proofs.Lexeme.Word
import GDScript.Reader.Numeral

/-!
# Numerals

`IntLiteral.IsNumeral` and `FloatLiteral.IsNumeral` say how an integer and a number with a point are
spelled and what the spelling denotes. The readers find exactly such literals: an integer where no
further digit goes on with it (`IntLiteral.EndsBefore`), a number with a point wherever digits, a
point and a digit are ahead (`Text.StartsFloat`).
-/

namespace GDScript

theorem CodeUnit.isIdentifierChar_of_isHexDigit {u : CodeUnit} (h : u.isHexDigit = true) :
    u.isIdentifierChar = true := by
  simp only [isHexDigit, isIdentifierChar, isIdentifierStart, isLetter, isDigit, Bool.or_eq_true,
    Bool.and_eq_true, decide_eq_true_eq, UInt16.le_iff_toNat_le, beq_iff_eq] at h ⊢
  simp only [show (0x61 : UInt16).toNat = 0x61 from rfl, show (0x66 : UInt16).toNat = 0x66 from rfl,
    show (0x41 : UInt16).toNat = 0x41 from rfl, show (0x46 : UInt16).toNat = 0x46 from rfl,
    show (0x7A : UInt16).toNat = 0x7A from rfl, show (0x5A : UInt16).toNat = 0x5A from rfl] at h ⊢
  omega

theorem CodeUnit.isIdentifierChar_of_isDigit {u : CodeUnit} (h : u.isDigit = true) :
    u.isIdentifierChar = true :=
  isIdentifierChar_of_isHexDigit (isHexDigit_of_isDigit h)

/-- A run of units of a class, one at least. -/
def Text.IsRun (p : CodeUnit → Bool) (s : Text) : Prop := s ≠ [] ∧ ∀ u ∈ s, p u = true

instance (p : CodeUnit → Bool) (s : Text) : Decidable (Text.IsRun p s) :=
  inferInstanceAs (Decidable (_ ∧ _))

theorem Text.IsRun.imp {p q : CodeUnit → Bool} {s : Text} (h : s.IsRun p)
    (hpq : ∀ u, p u = true → q u = true) : s.IsRun q :=
  ⟨h.1, fun u hu => hpq u (h.2 u hu)⟩

theorem Text.IsRun.append {p : CodeUnit → Bool} {s t : Text} (hs : s.IsRun p) (ht : t.IsRun p) :
    Text.IsRun p (s ++ t) := by
  refine ⟨fun h => hs.1 (List.append_eq_nil_iff.mp h).1, fun u hu => ?_⟩
  rcases List.mem_append.mp hu with hu | hu
  · exact hs.2 u hu
  · exact ht.2 u hu

/-- Decimal digits, or `0x` and hexadecimal digits, beside the number that they denote. -/
inductive IntLiteral.IsNumeral : IntLiteral → Prop where
  | decimal {digits : Text} (h : digits.IsRun CodeUnit.isDigit) :
      IsNumeral ⟨Text.value 10 digits, digits⟩
  | hexadecimal {digits : Text} (h : digits.IsRun CodeUnit.isHexDigit) :
      IsNumeral ⟨Text.value 16 digits, "0x" ++ digits⟩

/-- Digits on both sides of a point, beside the nearest double. -/
inductive FloatLiteral.IsNumeral : FloatLiteral → Prop where
  | mk {whole fraction : Text} (hw : whole.IsRun CodeUnit.isDigit)
      (hf : fraction.IsRun CodeUnit.isDigit) :
      IsNumeral ⟨Binary64.ofDecimal (Text.value 10 (whole ++ fraction)) (-fraction.length),
        whole ++ CodeUnit.dot :: fraction⟩

namespace Text

/-! ### Integers -/

theorem digits_append {s rest : Text} (hs : ∀ u ∈ s, u.isDigit = true)
    (hrest : Avoids CodeUnit.isDigit rest) : digits (s ++ rest) = s :=
  takeWhile_append hs hrest

/-- `0x` and a hexadecimal digit are ahead. -/
def StartsHexadecimal (t : Text) : Prop :=
  ∃ (u : CodeUnit) (rest : Text), u.isHexDigit = true ∧ t = "0x" ++ u :: rest

theorem startsHexadecimal_iff {t : Text} : t.StartsHexadecimal ↔
    (List.isPrefixOf ("0x" : Text) t
      && !((t.drop 2).takeWhile CodeUnit.isHexDigit).isEmpty) = true := by
  rw [Bool.and_eq_true, List.isPrefixOf_iff_prefix]
  constructor
  · rintro ⟨u, rest, hu, rfl⟩
    refine ⟨⟨u :: rest, rfl⟩, ?_⟩
    show (!((u :: rest).takeWhile CodeUnit.isHexDigit).isEmpty) = true
    rw [List.takeWhile_cons_of_pos hu]
    rfl
  · rintro ⟨⟨rest, rfl⟩, hne⟩
    change (!(rest.takeWhile CodeUnit.isHexDigit).isEmpty) = true at hne
    -- the run of digits is not empty exactly if the first unit is a digit
    cases rest with
    | nil => exact Bool.noConfusion hne
    | cons u rest =>
      by_cases hu : u.isHexDigit = true
      · exact ⟨u, rest, hu, rfl⟩
      · rw [List.takeWhile_cons_of_neg hu] at hne
        exact Bool.noConfusion hne

/-- Where a run of decimal digits is ahead, no hexadecimal numeral is. -/
theorem hexadecimal_not_ahead {s rest : Text} (hs : s.IsRun CodeUnit.isDigit)
    (hrest : Avoids CodeUnit.isIdentifierChar rest) : ¬ StartsHexadecimal (s ++ rest) := by
  rintro ⟨v, t, -, ht⟩
  have ht' : s ++ rest = 0x30 :: 0x78 :: v :: t := ht
  match s, hs with
  | [u], _ =>
    rw [List.cons_append, List.nil_append, List.cons.injEq] at ht'
    rw [ht'.2, avoids_cons] at hrest
    exact absurd hrest (by decide)
  | u :: v :: s, hs =>
    rw [List.cons_append, List.cons_append, List.cons.injEq, List.cons.injEq] at ht'
    have hv := hs.2 v (by simp)
    rw [ht'.2.1] at hv
    exact absurd hv (by decide)

end Text

/--
The text behind an integer does not go on with it: no further digit follows, and what looks like a
single zero is not the start of a hexadecimal numeral.
-/
inductive IntLiteral.EndsBefore : IntLiteral → Text → Prop where
  | decimal {digits after : Text} (hdigits : digits.IsRun CodeUnit.isDigit)
      (hafter : after.Avoids CodeUnit.isDigit) (hhex : ¬ Text.StartsHexadecimal (digits ++ after)) :
      EndsBefore ⟨Text.value 10 digits, digits⟩ after
  | hexadecimal {digits after : Text} (hdigits : digits.IsRun CodeUnit.isHexDigit)
      (hafter : after.Avoids CodeUnit.isHexDigit) :
      EndsBefore ⟨Text.value 16 digits, "0x" ++ digits⟩ after

theorem IntLiteral.IsNumeral.endsBefore {literal : IntLiteral} {rest : Text} (h : literal.IsNumeral)
    (hrest : rest.Avoids CodeUnit.isIdentifierChar) : literal.EndsBefore rest := by
  cases h with
  | decimal hdigits =>
    exact .decimal hdigits (hrest.imp fun _ => CodeUnit.isIdentifierChar_of_isDigit)
      (Text.hexadecimal_not_ahead hdigits hrest)
  | hexadecimal hdigits =>
    exact .hexadecimal hdigits (hrest.imp fun _ => CodeUnit.isIdentifierChar_of_isHexDigit)

namespace Text

/-- The reader takes the whole of an integer. -/
theorem intLiteral?_of_endsBefore {literal : IntLiteral} {after : Text}
    (h : literal.EndsBefore after) : intLiteral? (literal.raw ++ after) = some literal := by
  cases h with
  -- a decimal numeral such as `0` must not be the start of a hexadecimal one
  | @decimal digits _ hdigits hafter hhex =>
    have hne : digits.isEmpty = false := List.isEmpty_eq_false_iff.mpr hdigits.1
    have hcond := eq_false_of_ne_true (mt startsHexadecimal_iff.mpr hhex)
    simp only [intLiteral?, hcond, digits_append hdigits.2 hafter, hne]
    rfl
  | @hexadecimal digits after hdigits hafter =>
    have hhex : (List.drop 2 (("0x" : Text) ++ digits ++ after)).takeWhile CodeUnit.isHexDigit
        = digits :=
      takeWhile_append hdigits.2 hafter
    have hne : digits.isEmpty = false := List.isEmpty_eq_false_iff.mpr hdigits.1
    have hprefix : List.isPrefixOf ("0x" : Text) ("0x" ++ digits ++ after) = true := by
      rw [List.append_assoc]
      exact isPrefixOf_append _ _
    simp only [intLiteral?, hhex, hne, hprefix, Bool.not_false, Bool.and_self, if_true]

theorem intLiteral?_append {literal : IntLiteral} {rest : Text} (h : literal.IsNumeral)
    (hrest : Avoids CodeUnit.isIdentifierChar rest) :
    intLiteral? (literal.raw ++ rest) = some literal :=
  intLiteral?_of_endsBefore (h.endsBefore hrest)

/-- An integer that is found is a run of digits that no further digit follows. -/
theorem exists_of_intLiteral? {literal : IntLiteral} {t : Text}
    (h : intLiteral? t = some literal) : ∃ digits rest, t = literal.raw ++ rest ∧
      (digits.IsRun CodeUnit.isDigit ∧ rest.Avoids CodeUnit.isDigit ∧
          literal = ⟨value 10 digits, digits⟩ ∨
        digits.IsRun CodeUnit.isHexDigit ∧ rest.Avoids CodeUnit.isHexDigit ∧
          literal = ⟨value 16 digits, "0x" ++ digits⟩) := by
  simp only [intLiteral?] at h
  -- the hexadecimal form is looked for first
  split at h
  · next hhex =>
    obtain rfl := Option.some.inj h
    rw [Bool.and_eq_true, List.isPrefixOf_iff_prefix] at hhex
    obtain ⟨⟨t, rfl⟩, hne⟩ := hhex
    change (!(t.takeWhile CodeUnit.isHexDigit).isEmpty) = true at hne
    refine ⟨t.takeWhile CodeUnit.isHexDigit, t.dropWhile CodeUnit.isHexDigit, ?_,
      .inr ⟨⟨by simpa using hne, takeWhile_pos⟩, avoids_dropWhile _ t, rfl⟩⟩
    rw [List.append_assoc]
    exact congrArg _ List.takeWhile_append_dropWhile.symm
  · split at h
    · exact absurd h (by simp)
    · next hne =>
      obtain rfl := Option.some.inj h
      exact ⟨digits t, t.dropWhile CodeUnit.isDigit, List.takeWhile_append_dropWhile.symm,
        .inl ⟨⟨by simpa using hne, takeWhile_pos⟩, avoids_dropWhile _ t, rfl⟩⟩

theorem isNumeral_of_intLiteral? {literal : IntLiteral} {t : Text}
    (h : intLiteral? t = some literal) : literal.IsNumeral ∧ ∃ rest, t = literal.raw ++ rest := by
  obtain ⟨digits, rest, hsplit, ⟨hrun, -, rfl⟩ | ⟨hrun, -, rfl⟩⟩ := exists_of_intLiteral? h
  · exact ⟨.decimal hrun, rest, hsplit⟩
  · exact ⟨.hexadecimal hrun, rest, hsplit⟩

/-! ### Numbers with a point -/

theorem floatLiteral?_append {literal : FloatLiteral} {rest : Text} (h : literal.IsNumeral)
    (hrest : Avoids CodeUnit.isDigit rest) :
    floatLiteral? (literal.raw ++ rest) = some literal := by
  obtain ⟨hw, hf⟩ := h
  rename_i whole fraction
  have hwhole : digits (whole ++ CodeUnit.dot :: (fraction ++ rest)) = whole :=
    digits_append hw.2 (avoids_cons.mpr (by decide))
  have hfraction : digits (fraction ++ rest) = fraction := digits_append hf.2 hrest
  simp [floatLiteral?, hwhole, hfraction, hw.1, hf.1]

/-- Digits, a point and a digit are ahead. -/
def StartsFloat (t : Text) : Prop :=
  ∃ (whole : Text) (u : CodeUnit) (rest : Text), whole.IsRun CodeUnit.isDigit ∧
    u.isDigit = true ∧ t = whole ++ CodeUnit.dot :: u :: rest

theorem isNumeral_of_floatLiteral? {literal : FloatLiteral} {t : Text}
    (h : floatLiteral? t = some literal) : literal.IsNumeral ∧ ∃ rest, t = literal.raw ++ rest := by
  simp only [floatLiteral?] at h
  split at h
  · exact absurd h (by simp)
  · next u r hdrop =>
    split at h
    · next hcond =>
      obtain rfl := Option.some.inj h
      simp only [Bool.and_eq_true, beq_iff_eq, Bool.not_eq_true', List.isEmpty_eq_false_iff]
        at hcond
      obtain ⟨⟨rfl, hw⟩, hf⟩ := hcond
      refine ⟨.mk ⟨hw, takeWhile_pos⟩ ⟨hf, takeWhile_pos⟩, r.dropWhile CodeUnit.isDigit, ?_⟩
      -- the text in front of the dot is its run of digits
      have hsplit : digits t ++ t.drop (digits t).length = t :=
        List.prefix_iff_eq_append.mp (List.takeWhile_prefix _)
      rw [List.append_assoc, List.cons_append, digits.eq_1 r, List.takeWhile_append_dropWhile,
        ← hdrop, hsplit]
    · exact absurd h (by simp)

/-- A number with a point is found exactly where digits, a point and a digit are ahead. -/
theorem floatLiteral?_eq_none_iff {t : Text} : floatLiteral? t = none ↔ ¬ t.StartsFloat := by
  constructor
  · rintro hnone ⟨whole, u, rest, hwhole, hu, rfl⟩
    -- the fraction the reader takes goes on to the last digit
    have hfraction : Text.IsRun CodeUnit.isDigit (u :: rest.takeWhile CodeUnit.isDigit) :=
      ⟨by simp, fun v hv => by
        rcases List.mem_cons.mp hv with rfl | hv
        · exact hu
        · exact takeWhile_pos v hv⟩
    have hsome := floatLiteral?_append (.mk hwhole hfraction)
      (avoids_dropWhile CodeUnit.isDigit rest)
    rw [List.append_assoc, List.cons_append, List.cons_append, List.takeWhile_append_dropWhile,
      hnone] at hsome
    exact absurd hsome (by simp)
  · intro hstarts
    cases hfound : floatLiteral? t with
    | none => rfl
    | some literal =>
      obtain ⟨⟨hwhole, hfraction⟩, rest, rfl⟩ := isNumeral_of_floatLiteral? hfound
      rename_i whole fraction
      obtain ⟨u, fraction, rfl⟩ := List.exists_cons_of_ne_nil hfraction.1
      exact absurd ⟨whole, u, fraction ++ rest, hwhole, hfraction.2 u List.mem_cons_self, by simp⟩
        hstarts

/-- `0x` is not the start of a number with a point. -/
theorem not_startsFloat_hexadecimal (t : Text) : ¬ StartsFloat ("0x" ++ t) := by
  rintro ⟨whole, u, rest, hwhole, -, hsplit⟩
  have hdigits : digits ("0x" ++ t) = whole := by
    rw [hsplit]
    exact digits_append hwhole.2 (avoids_cons.mpr (by decide))
  -- the digits in front of the `x` are a single zero
  obtain rfl : ([0x30] : Text) = whole := hdigits
  have hx : (0x78 : CodeUnit) = CodeUnit.dot := (List.cons.inj (List.cons.inj hsplit).2).1
  exact absurd hx (by decide)

/-- An integer is not the start of a number with a point, unless a point and a digit follow. -/
theorem floatLiteral?_eq_none {literal : IntLiteral} {rest : Text} (h : literal.IsNumeral)
    (hrest : Avoids CodeUnit.isIdentifierChar rest)
    (hdot : ∀ r, rest = CodeUnit.dot :: r → Avoids CodeUnit.isDigit r) :
    floatLiteral? (literal.raw ++ rest) = none := by
  rw [floatLiteral?_eq_none_iff]
  cases h with
  | @decimal s hs =>
    rintro ⟨whole, u, r, hwhole, hu, hsplit⟩
    have hdigits : digits (s ++ rest) = s :=
      digits_append hs.2 (hrest.imp fun _ => CodeUnit.isIdentifierChar_of_isDigit)
    have hwhole' : digits (s ++ rest) = whole := by
      rw [hsplit]
      exact digits_append hwhole.2 (avoids_cons.mpr (by decide))
    -- the digits of the numeral are the whole part, so a digit would stand behind the dot
    obtain rfl : s = whole := hdigits.symm.trans hwhole'
    have hu' := hdot (u :: r) (List.append_cancel_left hsplit)
    rw [avoids_cons, hu] at hu'
    exact Bool.noConfusion hu'
  | @hexadecimal s hs =>
    show ¬ StartsFloat ("0x" ++ s ++ rest)
    rw [List.append_assoc]
    exact not_startsFloat_hexadecimal (s ++ rest)

end Text

end GDScript
