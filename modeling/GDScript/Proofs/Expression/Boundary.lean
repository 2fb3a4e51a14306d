import GDScript.Proofs.Expression.Written
import GDScript.Proofs.Token

/-!
# Where expressions start and end

The first unit of an expression belongs to a small class (`CodeUnit.startsOperand`), so a gap before
it ends there and no closing bracket is ahead; and it does not start with a word that may not name a
value (`Phrase.Written.startsWord_eq_false`).

An expression is read up to the longest text that goes on with it. `Text.EndsExpr` says that a text does not
go on with an expression of a level: not with its last token, not with a subscript or a member, and
not with a binary operator behind a gap.
-/

namespace GDScript

namespace CodeUnit

/-- A unit that a value starts with, or an expression in parentheses. -/
def startsValue (u : CodeUnit) : Bool :=
  u.isIdentifierStart || u.isDigit || u.isQuote || List.contains ("$([\x7b" : Text) u

/-- A unit that an expression starts with. -/
def startsOperand (u : CodeUnit) : Bool := u.startsValue || List.contains ("-+!" : Text) u

/-- A value is an operand. -/
theorem startsOperand_of_startsValue {u : CodeUnit} (h : u.startsValue = true) :
    u.startsOperand = true := by
  rw [startsOperand, h, Bool.true_or]

/-- A name is a value. -/
theorem startsValue_of_isIdentifierStart {u : CodeUnit} (h : u.isIdentifierStart = true) :
    u.startsValue = true := by
  simp [startsValue, h]

/-- No expression starts with a unit of a gap. -/
theorem startsOperand_eq_false_of_startsGap {u : CodeUnit} (h : u.startsGap true = true) :
    u.startsOperand = false := by
  simp only [startsGap, isSpace, isLineEnd, Bool.or_eq_true, beq_iff_eq] at h
  rcases h with (((rfl | rfl) | (rfl | rfl)) | rfl) <;> decide

/-- A gap ends a word. -/
theorem isIdentifierChar_eq_false_of_startsGap {b : Bool} {u : CodeUnit}
    (h : u.startsGap b = true) : u.isIdentifierChar = false :=
  Spelling.isIdentifierChar_of_startsGap (Text.startsGap_true_of h)

end CodeUnit

namespace Text

/-- The first unit of the text, which is not empty, is of the class. -/
def StartsWith (p : CodeUnit → Bool) (t : Text) : Prop := t.head?.any p = true

instance (p : CodeUnit → Bool) (t : Text) : Decidable (StartsWith p t) :=
  inferInstanceAs (Decidable (_ = true))

/-- What follows does not change the first unit. -/
theorem StartsWith.append {p : CodeUnit → Bool} {s : Text} (h : s.StartsWith p) (t : Text) :
    (s ++ t).StartsWith p := by
  cases s with
  | nil => exact Bool.noConfusion h
  | cons u s => exact h

theorem StartsWith.imp {p q : CodeUnit → Bool} {s : Text} (h : s.StartsWith p)
    (hpq : ∀ u, p u = true → q u = true) : s.StartsWith q := by
  cases s with
  | nil => exact Bool.noConfusion h
  | cons u s => exact hpq u h

/-- A text that starts with a unit of one class does not start with one of another. -/
theorem StartsWith.avoids {p q : CodeUnit → Bool} {s : Text} (h : s.StartsWith p)
    (hpq : ∀ u, q u = true → p u = false) : s.Avoids q := by
  cases s with
  | nil => rfl
  | cons u s =>
    have hu : p u = true := h
    rw [avoids_cons, ← Bool.not_eq_true]
    intro hq
    rw [hpq u hq] at hu
    exact Bool.noConfusion hu

theorem StartsWith.ne_nil {p : CodeUnit → Bool} {s : Text} (h : s.StartsWith p) : s ≠ [] := by
  rintro rfl
  exact Bool.noConfusion h

theorem StartsWith.startsName_eq_false {p : CodeUnit → Bool} {s : Text} (h : s.StartsWith p)
    (hp : ∀ u, u.isIdentifierStart = true → p u = false) : s.startsName = false :=
  h.avoids hp

/-- A run is not empty, so its first unit is of its class. -/
theorem IsRun.startsWith {p : CodeUnit → Bool} {s : Text} (h : s.IsRun p) : s.StartsWith p := by
  cases s with
  | nil => exact absurd rfl h.1
  | cons u s => exact h.2 u List.mem_cons_self

/-- A gap that is not empty starts with a unit of a gap. -/
theorem IsGap.startsWith {b : Bool} {g : Text} (h : IsGap b g) (hne : g ≠ []) :
    g.StartsWith (CodeUnit.startsGap b) := by
  cases g with
  | nil => exact absurd rfl hne
  | cons u g => exact h.startsGap

end Text

/-- Integers start with a digit, hexadecimal ones with a zero. -/
theorem IntLiteral.IsNumeral.startsWith {literal : IntLiteral} (h : literal.IsNumeral) :
    literal.raw.StartsWith CodeUnit.isDigit := by
  cases h with
  | decimal h => exact h.startsWith
  | hexadecimal h =>
    have hzero : Text.StartsWith CodeUnit.isDigit "0x" := by decide
    exact hzero.append _

/-- Floats start with a digit, never with the point. -/
theorem FloatLiteral.IsNumeral.startsWith {literal : FloatLiteral} (h : literal.IsNumeral) :
    literal.raw.StartsWith CodeUnit.isDigit := by
  obtain ⟨hw, hf⟩ := h
  exact hw.startsWith.append _

/-- The words for constants are names. -/
theorem Expr.isName_of_mem_constants : ∀ c ∈ Expr.constants, c.1.IsName := by
  decide +kernel

namespace Phrase

variable {words : List Text} {room : Nat} {s rest : Text}

/-! ### The first unit -/

/-- What the text of a phrase starts with. -/
def Starts : Phrase → Text → Prop
  | .expr _ level _, s =>
    s.StartsWith CodeUnit.startsOperand ∧ (4 ≤ level → s.StartsWith CodeUnit.startsValue)
  | .link _, s | .member _, s => s.StartsWith CodeUnit.isIdentifierStart
  | .arguments _, s => s.StartsWith (· == 0x28)
  | .items _ _, s | .pairs _, s => s = [] ∨ s.StartsWith CodeUnit.startsOperand

theorem starts_expr {b : Bool} {level : Nat} {e : Expr} (h : s.StartsWith CodeUnit.startsValue) :
    Starts (.expr b level e) s :=
  ⟨h.imp fun _ => CodeUnit.startsOperand_of_startsValue, fun _ => h⟩

theorem isIdentifierStart_of_isName {name : Text} (h : name.IsName) :
    name.StartsWith CodeUnit.isIdentifierStart := h.1

theorem startsValue_of_isName {name : Text} (h : name.IsName) :
    name.StartsWith CodeUnit.startsValue :=
  Text.StartsWith.imp h.1 fun _ => CodeUnit.startsValue_of_isIdentifierStart

/-- Every text of a phrase starts as its kind of phrase does. -/
theorem Written.starts {p : Phrase} (h : Written words room p s) : p.Starts s := by
  -- a numeral starts a value with a digit, a name with a letter
  have hdigit : ∀ u : CodeUnit, u.isDigit = true → u.startsValue = true := fun u hu => by
    simp [CodeUnit.startsValue, hu]
  induction h with
  | constant h => exact starts_expr (startsValue_of_isName (Expr.isName_of_mem_constants _ h))
  | int h => exact starts_expr (h.startsWith.imp hdigit)
  | float h => exact starts_expr (h.startsWith.imp hdigit)
  | @string _ _ literal h => exact starts_expr (by cases hq : literal.quote <;>
      simp [StringLiteral.write, hq] <;> rfl)
  | nodePath h => exact starts_expr (by cases h <;> rfl)
  | name h => exact starts_expr (startsValue_of_isName h.isName)
  | call h => exact starts_expr ((startsValue_of_isName h.isName).append _)
  | array => exact starts_expr rfl
  | object => exact starts_expr rfl
  | parens => exact starts_expr rfl
  | index _ _ _ _ ih =>
    simp only [List.append_assoc]
    exact starts_expr ((ih.2 (by omega)).append _)
  | attr _ _ ih =>
    simp only [List.append_assoc]
    exact starts_expr ((ih.2 (by omega)).append _)
  | @unary _ _ row _ _ _ hrow =>
    have hsign : ∀ row ∈ Spelling.unary, row.text.StartsWith CodeUnit.startsOperand := by decide
    simp only [List.append_assoc]
    exact ⟨(hsign row hrow).append _, fun hlevel => absurd hlevel (by omega)⟩
  | binary hlevel _ _ _ _ _ _ _ ih =>
    simp only [List.append_assoc]
    exact ⟨ih.1.append _, fun h => absurd h (by omega)⟩
  | tighter _ _ ih => exact ⟨ih.1, fun h => ih.2 (by omega)⟩
  | linkName h => exact h.1
  | linkCall h => exact isIdentifierStart_of_isName h |>.append _
  | linkIndex _ _ _ _ ih =>
    simp only [List.append_assoc]
    exact Text.StartsWith.append ih _
  | memberLink _ ih => exact ih
  | memberMore _ _ ih =>
    simp only [List.append_assoc]
    exact Text.StartsWith.append ih _
  | noArguments => rfl
  | arguments => rfl
  | noItems => exact .inl rfl
  | lastItem _ _ ih => exact .inr (ih.1.append _)
  | item _ _ _ _ ih =>
    simp only [List.append_assoc]
    exact .inr (ih.1.append _)
  | noPairs => exact .inl rfl
  | lastPair _ _ _ _ _ ih =>
    simp only [List.append_assoc]
    exact .inr (ih.1.append _)
  | pair _ _ _ _ _ _ _ ih =>
    simp only [List.append_assoc]
    exact .inr (ih.1.append _)

/-- An expression does not start with a gap, so a gap in front of it ends there. -/
theorem Written.avoids_gap {b k : Bool} {level : Nat} {e : Expr}
    (h : Written words room (.expr b level e) s) :
    (s ++ rest).Avoids (CodeUnit.startsGap k) :=
  (h.starts.1.append rest).avoids fun _ hu =>
    CodeUnit.startsOperand_eq_false_of_startsGap (Text.startsGap_true_of hu)

/-! ### The first word -/

/-- The text of an expression does not start with a word that may not name a value. -/
def AvoidsWords (words : List Text) : Phrase → Text → Prop
  | .expr _ level _, s => ∀ w ∈ words, w.IsName → (∀ c ∈ Expr.constants, c.1 ≠ w) →
      (level < 4 → w ≠ "not") → ∀ rest : Text, rest.Avoids CodeUnit.isIdentifierChar →
        Text.startsWord w (s ++ rest) = false
  | _, _ => True

/-- Where no identifier starts, no word does. -/
theorem avoidsWords_expr {b : Bool} {level : Nat} {e : Expr} {p : CodeUnit → Bool}
    (h : s.StartsWith p) (hp : ∀ u, u.isIdentifierStart = true → p u = false) :
    AvoidsWords words (.expr b level e) s := by
  intro w _ hw _ _ rest _
  exact Text.startsWord_eq_false hw ((h.append rest).startsName_eq_false hp)

/-- Where a name stands that is none of the words, no word does. -/
theorem startsWord_name_append {w name t : Text} (hw : w.IsName) (hname : name.IsName)
    (ht : t.Avoids CodeUnit.isIdentifierChar) (hne : name ≠ w) :
    Text.startsWord w (name ++ t) = false := by
  rw [← Bool.not_eq_true, Text.startsWord_append_iff hw hname ht]
  exact hne

/-- No name starts with a digit. -/
theorem isDigit_eq_false_of_isIdentifierStart {u : CodeUnit} (h : u.isIdentifierStart = true) :
    u.isDigit = false := by
  rw [← Bool.not_eq_true]
  intro hu
  simp only [CodeUnit.isIdentifierStart, CodeUnit.isLetter, CodeUnit.isDigit, Bool.or_eq_true,
    Bool.and_eq_true, decide_eq_true_eq, UInt16.le_iff_toNat_le, beq_iff_eq] at h hu
  simp only [show (0x61 : UInt16).toNat = 0x61 from rfl, show (0x7A : UInt16).toNat = 0x7A from rfl,
    show (0x41 : UInt16).toNat = 0x41 from rfl, show (0x5A : UInt16).toNat = 0x5A from rfl,
    show (0x30 : UInt16).toNat = 0x30 from rfl, show (0x39 : UInt16).toNat = 0x39 from rfl] at h hu
  have hunderscore : (0x5F : UInt16).toNat = 0x5F := rfl
  rcases h with (h | h) | rfl <;> omega

/-- What follows behind the end of a word changes nothing. -/
theorem AvoidsWords.append {b b' : Bool} {level level' : Nat} {e e' : Expr} {t : Text}
    (h : AvoidsWords words (.expr b level e) s) (hlevel : level < 4 → level' < 4)
    (ht : t.StartsWith fun u => !u.isIdentifierChar) :
    AvoidsWords words (.expr b' level' e') (s ++ t) := by
  intro w hmem hw hconstant hnot rest _
  rw [List.append_assoc]
  exact h w hmem hw hconstant (fun hl => hnot (hlevel hl)) _ ((ht.append rest).avoids (by simp))

/-- A gap that is not empty ends the word in front of it. -/
theorem startsWith_of_isGap {b : Bool} {g t : Text} (hg : g.IsGap b) (hne : g ≠ []) :
    (g ++ t).StartsWith fun u => !u.isIdentifierChar :=
  ((hg.startsWith hne).imp fun u hu => by
    rw [CodeUnit.isIdentifierChar_eq_false_of_startsGap hu]; rfl).append t

/-- No expression starts with a word that may not name a value. -/
theorem Written.avoidsWords {p : Phrase} (h : Written words room p s) : p.AvoidsWords words s := by
  -- only a name, a constant or `not` starts with a word; all else starts with a sign or a part
  induction h with
  | @constant _ _ c h =>
    intro w _ hw hconstant _ rest hrest
    exact startsWord_name_append hw (Expr.isName_of_mem_constants c h) hrest (hconstant c h)
  | int h => exact avoidsWords_expr h.startsWith fun _ => isDigit_eq_false_of_isIdentifierStart
  | float h => exact avoidsWords_expr h.startsWith fun _ => isDigit_eq_false_of_isIdentifierStart
  | @string _ _ literal h =>
    have hquote : literal.write.StartsWith CodeUnit.isQuote := by
      cases hq : literal.quote <;> simp [StringLiteral.write, hq] <;> rfl
    exact avoidsWords_expr hquote fun _ => CodeUnit.isQuote_eq_false_of_isIdentifierStart
  | @nodePath _ _ path h =>
    have hdollar : path.StartsWith (· == CodeUnit.dollar) := by cases h <;> rfl
    refine avoidsWords_expr hdollar fun u hu => ?_
    rw [beq_eq_false_iff_ne]
    rintro rfl
    exact absurd hu (by decide)
  | name h =>
    intro w hmem hw _ _ rest hrest
    exact startsWord_name_append hw h.isName hrest fun he => h.not_word (he ▸ hmem)
  | @call _ _ name es t h hes =>
    intro w hmem hw _ _ rest _
    rw [List.append_assoc]
    have ht : (t ++ rest).Avoids CodeUnit.isIdentifierChar := by
      refine (Text.StartsWith.append hes.starts rest).avoids fun u hu => ?_
      rw [beq_eq_false_iff_ne]
      rintro rfl
      exact absurd hu (by decide)
    exact startsWord_name_append hw h.isName ht fun he => h.not_word (he ▸ hmem)
  | array => exact avoidsWords_expr (p := fun u => !u.isIdentifierStart) rfl (by simp)
  | object => exact avoidsWords_expr (p := fun u => !u.isIdentifierStart) rfl (by simp)
  | parens => exact avoidsWords_expr (p := fun u => !u.isIdentifierStart) rfl (by simp)
  | index _ _ _ _ ih =>
    simp only [List.append_assoc]
    exact ih.append (by omega) rfl
  | attr _ _ ih =>
    simp only [List.append_assoc]
    exact ih.append (by omega) rfl
  | @unary _ _ row g _ t hrow hg hword =>
    have hrows : ∀ row ∈ Spelling.unary,
        row.text.StartsWith (fun u => !u.isIdentifierStart) ∨ row.isWord = true ∧ row.text = "not" := by
      decide
    rw [List.append_assoc]
    rcases hrows row hrow with hsign | ⟨hisWord, htext⟩
    · exact avoidsWords_expr (hsign.append _) (by simp)
    · intro w hmem hw _ hnot rest hrest
      rw [htext, List.append_assoc]
      refine startsWord_name_append hw (by decide) ?_ (hnot (by omega)).symm
      exact ((startsWith_of_isGap hg (hword hisWord)).append rest).avoids (by simp)
  | binary _ _ _ hg hne _ _ _ ih =>
    simp only [List.append_assoc]
    exact ih.append id (startsWith_of_isGap hg hne)
  | tighter _ _ ih =>
    intro w hmem hw hconstant hnot
    exact ih w hmem hw hconstant fun hl => hnot (by omega)
  | _ => trivial

end Phrase

/-! ### What follows an expression -/

/-- A unit that may go on with a value directly before it. -/
def CodeUnit.joins (u : CodeUnit) : Bool := u.isIdentifierChar || List.contains ("(./[" : Text) u

/--
The text does not go on with an expression of the level: not with its last token, not with a
subscript or a member, and not with an operator of the level or a tighter one.
-/
structure Text.EndsExpr (b : Bool) (level : Nat) (rest : Text) : Prop where
  word : rest.Avoids CodeUnit.isIdentifierChar
  call : rest.Avoids (· == 0x28)
  path : ∀ r : Text, rest = CodeUnit.slash :: r → r.startsName = false
  fraction : ∀ r : Text, rest = CodeUnit.dot :: r → r.Avoids CodeUnit.isDigit
  index : level ≤ 5 → rest.Avoids (· == 0x5B)
  member : level ≤ 4 → Expression.startsMember rest = false
  operator : ∀ k ≤ 2, level ≤ k →
    (Spelling.binaryTable k).find? (·.isAt (rest.drop (Text.gapLengthIn b rest))) = none

open Text (EndsExpr)

variable {b : Bool} {level : Nat} {rest : Text}

/-- What ends an expression of a level ends those of tighter ones. -/
theorem Text.EndsExpr.mono {level' : Nat} (h : EndsExpr b level rest) (hle : level ≤ level') :
    EndsExpr b level' rest where
  word := h.word
  call := h.call
  path := h.path
  fraction := h.fraction
  index hl := h.index (by omega)
  member hl := h.member (by omega)
  operator k hk hl := h.operator k hk (by omega)

/-- Above the binary operators it does not matter whether brackets are open. -/
theorem Text.EndsExpr.above {b' : Bool} (h : EndsExpr b level rest) (hle : 3 ≤ level) : EndsExpr b' level rest where
  word := h.word
  call := h.call
  path := h.path
  fraction := h.fraction
  index := h.index
  member := h.member
  operator k hk hl := absurd hl (by omega)

/-- What ends an expression ends a node path. -/
theorem Text.EndsExpr.path_chain (h : EndsExpr b level rest) : rest.EndsChain CodeUnit.slash :=
  ⟨h.word, h.path⟩

namespace CodeUnit

theorem joins_eq_false_of_startsGap {u : CodeUnit} (h : u.startsGap true = true) :
    u.joins = false := by
  simp only [startsGap, isSpace, isLineEnd, Bool.or_eq_true, beq_iff_eq] at h
  rcases h with (((rfl | rfl) | (rfl | rfl)) | rfl) <;> decide

end CodeUnit

/-- Where nothing joins directly, only a binary operator can go on. -/
theorem endsExpr_of_avoids_joins (h : rest.Avoids CodeUnit.joins)
    (hop : ∀ k ≤ 2, level ≤ k →
      (Spelling.binaryTable k).find? (·.isAt (rest.drop (Text.gapLengthIn b rest))) = none) :
    EndsExpr b level rest where
  word := h.imp fun u hu => by rw [CodeUnit.joins, hu, Bool.true_or]
  call := h.imp fun u hu => by rw [beq_iff_eq.mp hu]; rfl
  path r hr := by
    rw [hr] at h
    exact Bool.noConfusion h
  fraction r hr := by
    rw [hr] at h
    exact Bool.noConfusion h
  index _ := h.imp fun u hu => by rw [beq_iff_eq.mp hu]; rfl
  -- neither a dot nor a bracket can stand at a text that avoids what joins
  member _ := by
    cases rest with
    | nil => rfl
    | cons u r =>
      have hdot : (u == CodeUnit.dot) = false := by
        rw [← Bool.not_eq_true, beq_iff_eq]
        rintro rfl
        exact Bool.noConfusion h
      simpa [Expression.startsMember] using fun he => absurd he (beq_eq_false_iff_ne.mp hdot)
  operator := hop

/-- What stands behind a gap goes on with nothing but an operator, if the gap is not empty. -/
theorem endsExpr_gap {g t : Text} (hg : g.IsGap b) (ht : t.Avoids (CodeUnit.startsGap b))
    (hnear : g = [] → t.Avoids CodeUnit.joins)
    (hop : ∀ k ≤ 2, level ≤ k → (Spelling.binaryTable k).find? (·.isAt t) = none) :
    EndsExpr b level (g ++ t) := by
  refine endsExpr_of_avoids_joins ?_ fun k hk hl => ?_
  · -- an empty gap hides nothing, so what stands behind it must not join either
    by_cases hne : g = []
    · rw [hne]
      exact hnear hne
    · exact ((hg.startsWith hne).append t).avoids fun u hu => by
        rw [← Bool.not_eq_true]
        intro hgap
        rw [CodeUnit.joins_eq_false_of_startsGap (Text.startsGap_true_of hgap)] at hu
        exact Bool.noConfusion hu
  · rw [Text.gapLengthIn_append hg ht, List.drop_left]
    exact hop k hk hl

/-- A unit that no expression goes on with, not even behind a gap. -/
def CodeUnit.separates (u : CodeUnit) : Bool :=
  !u.joins && !u.startsOperator && !u.startsGap true

/-- A separating sign ends every expression, with or without a gap in front. -/
theorem endsExpr_separator {g t : Text} {u : CodeUnit} (hg : g.IsGap b)
    (hu : u.separates = true) : EndsExpr b level (g ++ u :: t) := by
  simp only [CodeUnit.separates, Bool.and_eq_true, Bool.not_eq_true'] at hu
  obtain ⟨⟨hjoins, hoperator⟩, hgap⟩ := hu
  refine endsExpr_gap hg ?_ (fun _ => hjoins) fun k hk _ => ?_
  · rw [Text.avoids_cons, ← Bool.not_eq_true]
    intro h
    rw [Text.startsGap_true_of h] at hgap
    exact Bool.noConfusion hgap
  · exact Spelling.find?_binaryTable_eq_none (t := u :: t) hoperator hk

/-- No binary operator starts with a unit of a gap. -/
theorem Spelling.startsWith_binaryTable : ∀ k ≤ 2, ∀ row ∈ binaryTable k,
    row.text.StartsWith fun u => !u.startsGap true := by
  decide

/-- The left operand of a binary operator ends before it. -/
theorem endsExpr_operator {row : Spelling BinaryOp} {g g' t : Text} (hlevel : level ≤ 2)
    (hrow : row ∈ Spelling.binaryTable level) (hg : g.IsGap b) (hne : g ≠ []) (hg' : g'.IsGap b)
    (hne' : g' ≠ []) : EndsExpr b (level + 1) (g ++ (row.text ++ (g' ++ t))) := by
  refine endsExpr_gap hg ?_ (fun h => absurd h hne) fun k hk hl => ?_
  · refine ((Spelling.startsWith_binaryTable level hlevel row hrow).append _).avoids fun u hu => ?_
    rw [Text.startsGap_true_of hu]
    rfl
  · -- the gap behind the operator keeps a longer spelling from being found
    cases g' with
    | nil => exact absurd rfl hne'
    | cons u g' =>
      rw [List.cons_append, Spelling.find?_append_cons (Spelling.isDense_binaryTable k hk)
        (Text.startsGap_true_of hg'.startsGap)]
      exact (Spelling.find?_binaryTable_space level hlevel row hrow).2.1 k hk (by omega)

/-- A subscript ends what it is an index of. -/
theorem endsExpr_index {t : Text} : EndsExpr b 6 ((0x5B : CodeUnit) :: t) where
  word := rfl
  call := rfl
  path r hr := by
    rw [List.cons.injEq] at hr
    exact absurd hr.1 (by decide)
  fraction r hr := by
    rw [List.cons.injEq] at hr
    exact absurd hr.1 (by decide)
  index hl := absurd hl (by omega)
  member hl := absurd hl (by omega)
  operator k hk hl := absurd hl (by omega)

/-- A member ends what it is a member of, and is no fraction since it starts with a name. -/
theorem endsExpr_member {t : Text} (ht : t.StartsWith CodeUnit.isIdentifierStart) :
    EndsExpr b 5 (CodeUnit.dot :: t) where
  word := rfl
  call := rfl
  path r hr := by
    rw [List.cons.injEq] at hr
    exact absurd hr.1 (by decide)
  -- behind the dot there is a name, so it is no fraction of a number
  fraction r hr := by
    rw [List.cons.injEq] at hr
    rw [← hr.2]
    refine ht.avoids fun u hu => ?_
    rw [← Bool.not_eq_true]
    intro hstart
    rw [Phrase.isDigit_eq_false_of_isIdentifierStart hstart] at hu
    exact Bool.noConfusion hu
  index _ := rfl
  member hl := absurd hl (by omega)
  operator k hk hl := absurd hl (by omega)

end GDScript
