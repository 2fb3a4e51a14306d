import GDScript.Proofs.Lexeme.Gap
import GDScript.Reader.Operator

/-!
# Operators before a gap

An operator that a gap follows is read as itself, whatever the gap starts with: the tables hold no
unit that starts a gap, so a gap is as good as a space (`Spelling.isAt_append_cons`), and with a
space the tables are small enough to be searched. Where no unit is next that an operator starts
with, no operator is read.
-/

namespace GDScript

namespace Spelling

variable {Op : Type}

/-- The binary operators by how tightly they bind, the loosest ones first. -/
def binaryTable : Nat → List (Spelling BinaryOp)
  | 0 => logic
  | 1 => additive
  | _ => multiplicative

/-- No unit of the row, neither of its text nor of those that may not follow, starts a gap. -/
def IsDense (s : Spelling Op) : Prop :=
  ∀ u ∈ s.text ++ s.notBefore, u.startsGap true = false

instance (s : Spelling Op) : Decidable s.IsDense :=
  inferInstanceAs (Decidable (∀ u ∈ s.text ++ s.notBefore, u.startsGap true = false))

/-- A prefix does not go beyond a unit that it does not hold. -/
theorem isPrefixOf_append_cons {s w rest : Text} {u : CodeUnit} (h : u ∉ s) :
    s.isPrefixOf (w ++ u :: rest) = s.isPrefixOf w := by
  induction s generalizing w with
  | nil => rw [List.isPrefixOf, List.isPrefixOf]
  | cons v s ih =>
    have hv : (v == u) = false := by
      rw [← Bool.not_eq_true, beq_iff_eq]
      exact fun hvu => h (hvu ▸ List.mem_cons_self)
    cases w with
    | nil => simp [List.isPrefixOf, hv]
    | cons x w =>
      rw [List.cons_append, List.isPrefixOf, List.isPrefixOf,
        ih fun hu => h (List.mem_cons_of_mem v hu)]

/-- A gap ends a word. -/
theorem isIdentifierChar_of_startsGap {u : CodeUnit} (h : u.startsGap true = true) :
    u.isIdentifierChar = false := by
  simp only [CodeUnit.startsGap, CodeUnit.isSpace, CodeUnit.isLineEnd, Bool.or_eq_true,
    beq_iff_eq] at h
  rcases h with (((rfl | rfl) | (rfl | rfl)) | rfl) <;> decide

/-- To a dense row every unit that starts a gap is as good as a space. -/
theorem isAt_append_cons {s : Spelling Op} (hs : s.IsDense) {w rest : Text} {u : CodeUnit}
    (hu : u.startsGap true = true) :
    s.isAt (w ++ u :: rest) = s.isAt (w ++ [CodeUnit.space]) := by
  have hmem : ∀ v : CodeUnit, v.startsGap true = true → v ∉ s.text ∧ v ∉ s.notBefore := by
    intro v hv
    constructor
    · intro hvs
      rw [hs v (List.mem_append_left _ hvs)] at hv
      exact Bool.noConfusion hv
    · intro hvs
      rw [hs v (List.mem_append_right _ hvs)] at hv
      exact Bool.noConfusion hv
  have hspace : CodeUnit.startsGap true CodeUnit.space = true := rfl
  simp only [isAt, isPrefixOf_append_cons (hmem u hu).1, isPrefixOf_append_cons (hmem _ hspace).1]
  -- the gap decides only where the whole text of the row stands in front of it
  by_cases hw : s.text.isPrefixOf w = true
  · obtain ⟨r, rfl⟩ := List.isPrefixOf_iff_prefix.mp hw
    rw [List.append_assoc, List.append_assoc, List.drop_left, List.drop_left]
    cases r with
    | nil =>
      simp [isIdentifierChar_of_startsGap hu, isIdentifierChar_of_startsGap hspace, (hmem u hu).2,
        (hmem _ hspace).2]
    | cons v r => rfl
  · rw [Bool.not_eq_true] at hw
    simp only [hw, Bool.false_and]

/-- In a dense table every gap is as good as a space. -/
theorem find?_append_cons {table : List (Spelling Op)} (htable : ∀ s ∈ table, s.IsDense)
    {w rest : Text} {u : CodeUnit} (hu : u.startsGap true = true) :
    table.find? (·.isAt (w ++ u :: rest)) = table.find? (·.isAt (w ++ [CodeUnit.space])) := by
  induction table with
  | nil => rfl
  | cons s table ih =>
    rw [List.find?_cons, List.find?_cons, isAt_append_cons (htable s List.mem_cons_self) hu,
      ih fun s' hs' => htable s' (List.mem_cons_of_mem s hs')]

/-- The binary operators are dense. -/
theorem isDense_binaryTable : ∀ k ≤ 2, ∀ s ∈ binaryTable k, s.IsDense := by decide

/-- The signs of assignments are dense. -/
theorem isDense_assign : ∀ s ∈ assign, s.IsDense := by decide

/-- Before a space each operator is found as itself, and none of the tighter ones is. -/
theorem find?_binaryTable_space : ∀ k ≤ 2, ∀ s ∈ binaryTable k,
    (binaryTable k).find? (·.isAt (s.text ++ [CodeUnit.space])) = some s ∧
      (∀ j ≤ 2, k < j → (binaryTable j).find? (·.isAt (s.text ++ [CodeUnit.space])) = none) ∧
      assign.find? (·.isAt (s.text ++ [CodeUnit.space])) = none := by
  decide

/-! ### Where no operator is -/

/-- Where no unit is next that a row starts with, no row is found. -/
theorem find?_eq_none_of_avoids {table : List (Spelling Op)} {p : CodeUnit → Bool} {t : Text}
    (htable : ∀ s ∈ table, s.text.head?.any p = true) (ht : t.Avoids p) :
    table.find? (·.isAt t) = none := by
  rw [List.find?_eq_none]
  intro s hs hat
  simp only [isAt, Bool.and_eq_true, List.isPrefixOf_iff_prefix] at hat
  obtain ⟨⟨⟨r, rfl⟩, -⟩, -⟩ := hat
  have hhead := htable s hs
  cases htext : s.text with
  | nil =>
    rw [htext] at hhead
    exact Bool.noConfusion hhead
  | cons u w =>
    rw [htext] at hhead ht
    have hu : p u = true := hhead
    rw [List.cons_append, Text.avoids_cons, hu] at ht
    exact Bool.noConfusion ht

end Spelling

/-- A unit that a binary operator or the sign of an assignment starts with. -/
def CodeUnit.startsOperator (u : CodeUnit) : Bool :=
  List.contains ("&|><=!aoi+-*/%^" : Text) u

namespace Spelling

/-- Where no operator starts, none is found. -/
theorem find?_binaryTable_eq_none {t : Text} (ht : t.Avoids CodeUnit.startsOperator) {k : Nat}
    (hk : k ≤ 2) : (binaryTable k).find? (·.isAt t) = none := by
  have htable : ∀ k ≤ 2, ∀ s ∈ binaryTable k,
      s.text.head?.any CodeUnit.startsOperator = true := by decide
  exact find?_eq_none_of_avoids (htable k hk) ht

/-- Where no sign of an assignment starts, none is found. -/
theorem find?_assign_eq_none {t : Text} (ht : t.Avoids CodeUnit.startsOperator) :
    assign.find? (·.isAt t) = none :=
  find?_eq_none_of_avoids (p := CodeUnit.startsOperator) (by decide) ht

/-- An operator before an operand is read as itself where a word ends and no `=` follows. -/
theorem find?_unary_append {s : Spelling UnaryOp} (hs : s ∈ unary) {t : Text}
    (hword : s.isWord = true → t.Avoids CodeUnit.isIdentifierChar)
    (hset : t.Avoids (· == 0x3D)) : unary.find? (·.isAt (s.text ++ t)) = some s := by
  simp only [unary, List.mem_cons, List.not_mem_nil, or_false] at hs
  -- two signs stand for themselves; `!` asks for no `=` behind it, and `not` for the end of a word
  cases t with
  | nil => rcases hs with rfl | rfl | rfl | rfl <;> rfl
  | cons u t =>
    rw [Text.avoids_cons] at hset
    rcases hs with rfl | rfl | rfl | rfl
    · rfl
    · rfl
    · have hat : (signUnless "!" UnaryOp.not "=").isAt (0x21 :: u :: t) = true := by
        change (true && true && !((u == 0x3D) || false)) = true
        rw [hset]
        rfl
      exact (List.find?_cons_of_neg Bool.false_ne_true).trans
        ((List.find?_cons_of_neg Bool.false_ne_true).trans (List.find?_cons_of_pos hat))
    · have hat : (word "not" UnaryOp.not).isAt (("not" : Text) ++ u :: t) = true := by
        change (true && !(true && u.isIdentifierChar) && !false) = true
        rw [Text.avoids_cons.mp (hword rfl)]
        rfl
      exact (List.find?_cons_of_neg Bool.false_ne_true).trans
        ((List.find?_cons_of_neg Bool.false_ne_true).trans
          ((List.find?_cons_of_neg Bool.false_ne_true).trans (List.find?_cons_of_pos hat)))

/-- Where neither a sign nor `not` is ahead, no operator before an operand is. -/
theorem find?_unary_eq_none {t : Text} (hsign : t.Avoids (List.contains ("-+!" : Text)))
    (hword : Text.startsWord "not" t = false) : unary.find? (·.isAt t) = none := by
  -- the word is the last row, and it is looked for as a word
  have hsigns : List.find? (·.isAt t) (unary.take 3) = none :=
    find?_eq_none_of_avoids (p := List.contains ("-+!" : Text)) (by decide) hsign
  have hnot : (word "not" UnaryOp.not).isAt t = false := by
    simpa [isAt, word, Text.startsWord] using hword
  rw [show unary = unary.take 3 ++ [word "not" .not] from rfl, List.find?_append, hsigns,
    Option.none_or, List.find?_cons, hnot]
  rfl

end Spelling

end GDScript
