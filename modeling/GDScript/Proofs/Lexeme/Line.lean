import GDScript.Proofs.Lexeme.Gap

/-!
# Lines that are dropped

Lines are dropped from the start of a text on, each up to its line feed. So what has been read
before the text that is left consists of whole lines (`Text.isLines_of_dropped`), and the next line
of code stays what it was, as long as only empty lines are dropped (`Text.nextCode_drop`).
-/

namespace GDScript.Text

variable {droppable : Text → Bool} {before l s t : Text}

theorem ne_lineFeed_of_isLineEnd {u : CodeUnit} (h : u.isLineEnd = false) :
    u ≠ CodeUnit.lineFeed := by
  rintro rfl
  exact Bool.noConfusion h

theorem avoids_isSpace_of_atLineEnd (h : t.atLineEnd = true) : t.Avoids CodeUnit.isSpace := by
  cases t with
  | nil => rfl
  | cons u t =>
    have hu : u.isLineEnd = true := h
    rw [avoids_cons, ← Bool.not_eq_true]
    intro hspace
    rw [isLineEnd_eq_false_of_isSpace hspace] at hu
    exact Bool.false_ne_true hu

/-- A line with only a gap on it is blank. -/
theorem isBlankLine_append {g : Text} (hg : IsGap false g) (ht : t.atLineEnd = true) :
    isBlankLine (g ++ t) = true := by
  rw [isBlankLine, dropWhile_append hg (avoids_isSpace_of_atLineEnd ht)]
  exact ht

/-- At the end of a line nothing is left of it. -/
theorem isBlankLine_of_atLineEnd (h : t.atLineEnd = true) : t.isBlankLine = true :=
  isBlankLine_append (isGap_nil false) h

theorem isEmptyLine_of_isBlankLine (h : t.isBlankLine = true) : t.isEmptyLine = true := by
  rw [isEmptyLine, h, Bool.true_or]

theorem isEmptyLine_of_atLineEnd (h : t.atLineEnd = true) : t.isEmptyLine = true :=
  isEmptyLine_of_isBlankLine (isBlankLine_of_atLineEnd h)

/-! ### The lengths of lines -/

theorem droppedLength_of_droppable (h : droppable t = true) :
    t.droppedLength droppable false = t.droppedLength droppable true := by
  cases t with
  | nil => rfl
  | cons u t => rw [droppedLength, droppedLength, h, Bool.false_or, Bool.true_or]

theorem droppedLength_le (droppable : Text → Bool) (inside : Bool) (t : Text) :
    t.droppedLength droppable inside ≤ t.length := by
  induction t generalizing inside with
  | nil => exact Nat.le_refl 0
  | cons u t ih =>
    rw [droppedLength, List.length_cons]
    split
    · exact Nat.succ_le_succ (ih _)
    · exact Nat.zero_le _

/-- What stands on a line that is dropped is dropped. -/
theorem droppedLength_append (hl : ∀ u ∈ l, u ≠ CodeUnit.lineFeed) :
    droppedLength droppable true (l ++ t) = l.length + t.droppedLength droppable true := by
  induction l with
  | nil => simp
  | cons u l ih =>
    have hu : (u != CodeUnit.lineFeed) = true := by simpa using hl u List.mem_cons_self
    rw [List.cons_append, droppedLength, Bool.true_or, if_pos rfl, hu,
      ih fun v hv => hl v (List.mem_cons_of_mem u hv), List.length_cons]
    omega

/-- A line is dropped up to its line feed. -/
theorem droppedLength_line (hl : ∀ u ∈ l, u ≠ CodeUnit.lineFeed) :
    droppedLength droppable true (l ++ CodeUnit.lineFeed :: t)
      = l.length + 1 + t.droppedLength droppable false := by
  rw [droppedLength_append hl, droppedLength, Bool.true_or, if_pos rfl]
  show l.length + (droppedLength droppable false t + 1) = _
  omega

/-- A last line is dropped up to the end of the text. -/
theorem droppedLength_lastLine (hl : ∀ u ∈ l, u ≠ CodeUnit.lineFeed) :
    l.droppedLength droppable true = l.length := by
  have hall : droppedLength droppable true (l ++ []) = l.length + 0 := droppedLength_append hl
  rwa [List.append_nil] at hall

/-! ### Whole lines -/

/-- Whole lines: nothing, or a text that ends in a line feed. -/
def IsLines (t : Text) : Prop := t.getLast?.all (· == CodeUnit.lineFeed) = true

instance (t : Text) : Decidable t.IsLines := inferInstanceAs (Decidable (_ = true))

theorem isLines_append_lineFeed (t : Text) : IsLines (t ++ [CodeUnit.lineFeed]) := by
  rw [IsLines, List.getLast?_concat]
  rfl

/--
Behind lines that are dropped stands the start of a line, unless the text is at its end; within a
line it does not matter what has been read before.
-/
theorem isLines_of_dropped (inside : Bool) (h : inside = false → before.IsLines) :
    t.drop (t.droppedLength droppable inside) = [] ∨
      IsLines (before ++ t.take (t.droppedLength droppable inside)) := by
  -- on the text, with what was dropped already in front
  induction t generalizing before inside with
  | nil => exact .inl rfl
  | cons u t ih =>
    rw [droppedLength]
    by_cases hdrop : (inside || droppable (u :: t)) = true
    · rw [if_pos hdrop, List.drop_succ_cons, List.take_succ_cons, List.append_cons]
      refine ih _ fun hu => ?_
      obtain rfl : u = CodeUnit.lineFeed := by simpa using hu
      exact isLines_append_lineFeed before
    · rw [if_neg hdrop]
      rw [Bool.not_eq_true, Bool.or_eq_false_iff] at hdrop
      refine .inr ?_
      rw [List.take_zero, List.append_nil]
      exact h hdrop.1

/-- Where a line starts or ends, lines that are dropped lead to the start of a line. -/
theorem isLines_of_dropped_of_atLineEnd (hblank : ∀ t, t.isBlankLine = true → droppable t = true)
    (h : before.IsLines ∨ t.atLineEnd = true) :
    t.drop (t.droppedLength droppable false) = [] ∨
      IsLines (before ++ t.take (t.droppedLength droppable false)) := by
  rcases h with h | h
  · exact isLines_of_dropped false fun _ => h
  · rw [droppedLength_of_droppable (hblank t (isBlankLine_of_atLineEnd h))]
    exact isLines_of_dropped true (by simp)

/-- What is left behind the lines that are dropped is none of them. -/
theorem droppable_drop_eq_false (droppable : Text → Bool) (inside : Bool) (t : Text) :
    t.drop (t.droppedLength droppable inside) = [] ∨
      droppable (t.drop (t.droppedLength droppable inside)) = false := by
  induction t generalizing inside with
  | nil => exact .inl rfl
  | cons u t ih =>
    rw [droppedLength]
    by_cases hdrop : (inside || droppable (u :: t)) = true
    · rw [if_pos hdrop, List.drop_succ_cons]
      exact ih _
    · rw [if_neg hdrop, List.drop_zero]
      rw [Bool.not_eq_true, Bool.or_eq_false_iff] at hdrop
      exact .inr hdrop.2

/-! ### The next line of code -/

/-- The text from the next line of code on, nothing when there is none. -/
def nextCode (t : Text) : Text := t.drop t.emptyLinesLength

@[simp] theorem nextCode_nil : nextCode [] = [] := rfl

theorem emptyLinesLength_of_isEmptyLine_eq_false (h : t.isEmptyLine = false) :
    t.emptyLinesLength = 0 := by
  cases t with
  | nil => rfl
  | cons u t => rw [emptyLinesLength, droppedLength, h, Bool.or_false, if_neg Bool.false_ne_true]

/-- A line of code is the next one. -/
theorem nextCode_of_isEmptyLine_eq_false (h : t.isEmptyLine = false) : t.nextCode = t := by
  rw [nextCode, emptyLinesLength_of_isEmptyLine_eq_false h, List.drop_zero]

theorem drop_droppedLength_drop (hempty : ∀ t, droppable t = true → t.isEmptyLine = true)
    (inside : Bool) (t : Text) :
    nextCode (t.drop (t.droppedLength droppable inside))
      = t.drop (t.droppedLength isEmptyLine inside) := by
  induction t generalizing inside with
  | nil => rfl
  | cons u t ih =>
    rw [droppedLength]
    by_cases hdrop : (inside || droppable (u :: t)) = true
    · -- a droppable line is empty, so it would be dropped among the empty ones too
      have hline : (inside || isEmptyLine (u :: t)) = true := by
        rw [Bool.or_eq_true] at hdrop ⊢
        exact hdrop.imp_right (hempty _)
      rw [if_pos hdrop, droppedLength, if_pos hline, List.drop_succ_cons, List.drop_succ_cons]
      exact ih _
    · rw [if_neg hdrop, List.drop_zero]
      rw [Bool.not_eq_true, Bool.or_eq_false_iff] at hdrop
      rw [hdrop.1]
      rfl

/-- Empty lines that are dropped do not change what the next line of code is. -/
theorem nextCode_drop (hempty : ∀ t, droppable t = true → t.isEmptyLine = true) (t : Text) :
    nextCode (t.drop (t.droppedLength droppable false)) = t.nextCode :=
  drop_droppedLength_drop hempty false t

theorem nextCode_nextCode (t : Text) : t.nextCode.nextCode = t.nextCode :=
  nextCode_drop (fun _ h => h) t

/-- The next line of code is no empty line. -/
theorem isEmptyLine_nextCode (t : Text) : t.nextCode = [] ∨ t.nextCode.isEmptyLine = false :=
  droppable_drop_eq_false isEmptyLine false t

/-- Nor does what stands on an empty line. -/
theorem nextCode_append (h : isEmptyLine (l ++ t) = true) (hl : ∀ u ∈ l, u ≠ CodeUnit.lineFeed)
    (ht : t.isEmptyLine = true) : nextCode (l ++ t) = t.nextCode := by
  rw [nextCode, nextCode, emptyLinesLength, emptyLinesLength, droppedLength_of_droppable h,
    droppedLength_of_droppable ht, droppedLength_append hl, ← List.drop_drop, List.drop_left]

/-- A line break at the start of a text is a line feed, perhaps behind a carriage return. -/
theorem lineBreakLength_cases (t : Text) :
    t.lineBreakLength = 0 ∨ ∃ l rest : Text, (l = [] ∨ l = [CodeUnit.carriageReturn]) ∧
      t = l ++ CodeUnit.lineFeed :: rest ∧ t.lineBreakLength = l.length + 1 := by
  cases t with
  | nil => exact .inl rfl
  | cons u t =>
    rw [lineBreakLength]
    split_ifs with hfeed hreturn
    · rw [beq_iff_eq] at hfeed
      exact .inr ⟨[], t, .inl rfl, by rw [hfeed]; rfl, rfl⟩
    · -- a carriage return counts in front of a line feed only
      cases t with
      | nil => exact absurd hreturn (by simp)
      | cons v t =>
        obtain ⟨rfl, rfl⟩ : u = CodeUnit.carriageReturn ∧ v = CodeUnit.lineFeed := by
          simpa using hreturn
        exact .inr ⟨[CodeUnit.carriageReturn], t, .inr rfl, rfl, rfl⟩
    · exact .inl rfl

/-- Nor does a line break. -/
theorem drop_codeDistance (t : Text) : t.drop t.codeDistance = t.nextCode := by
  -- behind a line break the same code comes next as in front of it
  have hbreak : ∀ (l t : Text), (∀ u ∈ l, u ≠ CodeUnit.lineFeed) →
      (l ++ CodeUnit.lineFeed :: t : Text).atLineEnd = true →
        nextCode (l ++ CodeUnit.lineFeed :: t) = t.nextCode := by
    intro l t hl hend
    rw [nextCode, emptyLinesLength, droppedLength_of_droppable (isEmptyLine_of_atLineEnd hend),
      droppedLength_line hl, ← List.drop_drop, List.append_cons,
      List.drop_left' (by rw [List.length_append, List.length_singleton])]
    rfl
  rw [codeDistance, ← List.drop_drop]
  change nextCode (t.drop t.lineBreakLength) = t.nextCode
  rcases t.lineBreakLength_cases with hnone | ⟨l, rest, hl, rfl, hlength⟩
  · rw [hnone, List.drop_zero]
  · rw [hlength, List.append_cons,
      List.drop_left' (by rw [List.length_append, List.length_singleton]), ← List.append_cons]
    rcases hl with rfl | rfl
    · exact (hbreak [] rest (by simp) rfl).symm
    · exact (hbreak [CodeUnit.carriageReturn] rest (by decide) rfl).symm

end GDScript.Text
