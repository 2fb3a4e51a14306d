import GDScript.Proofs.Expression.Boundary
import GDScript.Proofs.Lexeme.Comment
import GDScript.Proofs.Lexeme.Line

/-!
# Lines without code

Between lines of code there may be idle lines: blank ones, and comments on lines of their own. Which
of them matters depends on who looks: a block takes the comments at its own indentation, and passes
over the others. So `Text.IsIdle` asks of the indentation of every comment whether it is one that
may be passed over.

`Text.Ahead` is a text from the start of a line on, by the next line of code in it, if there is one,
and `Text.Follows` a text behind a line. The readers that look for lines are described on these.
-/

namespace GDScript

namespace Text

/-! ### Idle lines -/

/-- A line feed, perhaps after a carriage return. -/
def IsBreak (b : Text) : Prop :=
  b = [CodeUnit.lineFeed] ∨ b = [CodeUnit.carriageReturn, CodeUnit.lineFeed]

/-- What stands on an idle line; the indentation of a comment is `ok`. -/
inductive IsIdleLine (ok : Nat → Prop) : Text → Prop where
  | blank {g : Text} (hg : IsGap false g) : IsIdleLine ok g
  | comment {g c : Text} (hg : IsGap false g) (hok : ok g.indentation)
      (hc : ∀ u ∈ c, u.isLineEnd = false) : IsIdleLine ok (g ++ CodeUnit.hash :: c)

/-- Idle lines, each of which ends in a line break. -/
inductive IsIdle (ok : Nat → Prop) : Text → Prop where
  | nil : IsIdle ok []
  | cons {l b f : Text} (hl : IsIdleLine ok l) (hb : IsBreak b) (hf : IsIdle ok f) :
      IsIdle ok (l ++ (b ++ f))

/-- So many spaces. -/
abbrev spaces (v : Nat) : Text := List.replicate v CodeUnit.space

/-- A unit that a line of code may start with. -/
abbrev StartsCode (t : Text) : Prop := t.StartsWith fun u => !u.startsGap true

/--
Idle lines, and then a line of code, of which `fits` holds for its indentation and what follows it;
or idle lines up to the end of the text.
-/
inductive Ahead (ok : Nat → Prop) (fits : Nat → Text → Prop) : Text → Prop where
  | ended {f l : Text} (hf : IsIdle ok f) (hl : IsIdleLine ok l) : Ahead ok fits (f ++ l)
  | code {f t : Text} {v : Nat} (hf : IsIdle ok f) (ht : t.StartsCode) (hfits : fits v t) :
      Ahead ok fits (f ++ (spaces v ++ t))

/-- A line break, and lines; or the end of the text. -/
inductive Follows (ok : Nat → Prop) (fits : Nat → Text → Prop) : Text → Prop where
  | nil : Follows ok fits []
  | cons {b t : Text} (hb : IsBreak b) (h : Ahead ok fits t) : Follows ok fits (b ++ t)

variable {ok ok' : Nat → Prop} {fits fits' : Nat → Text → Prop} {b f g l t rest : Text}

theorem IsIdleLine.mono (h : IsIdleLine ok l) (hok : ∀ v, ok v → ok' v) : IsIdleLine ok' l := by
  cases h with
  | blank hg => exact .blank hg
  | comment hg h hc => exact .comment hg (hok _ h) hc

theorem IsIdle.mono (h : IsIdle ok f) (hok : ∀ v, ok v → ok' v) : IsIdle ok' f := by
  induction h with
  | nil => exact .nil
  | cons hl hb _ ih => exact .cons (hl.mono hok) hb ih

theorem IsIdle.append (h : IsIdle ok f) (ht : IsIdle ok t) : IsIdle ok (f ++ t) := by
  induction h with
  | nil => exact ht
  | cons hl hb _ ih =>
    rw [List.append_assoc, List.append_assoc]
    exact .cons hl hb ih

/-- A line break is that of a blank line. -/
theorem IsBreak.isIdle (hb : IsBreak b) (hf : IsIdle ok f) : IsIdle ok (b ++ f) :=
  .cons (l := []) (.blank (isGap_nil false)) hb hf

theorem Ahead.mono (h : Ahead ok fits t) (hok : ∀ v, ok v → ok' v)
    (hfits : ∀ v t, fits v t → fits' v t) : Ahead ok' fits' t := by
  cases h with
  | ended hf hl => exact .ended (hf.mono hok) (hl.mono hok)
  | code hf ht h => exact .code (hf.mono hok) ht (hfits _ _ h)

theorem Ahead.idle (hf : IsIdle ok f) (h : Ahead ok fits t) : Ahead ok fits (f ++ t) := by
  cases h with
  | ended hf' hl =>
    rw [← List.append_assoc]
    exact .ended (hf.append hf') hl
  | code hf' ht h =>
    rw [← List.append_assoc]
    exact .code (hf.append hf') ht h

theorem Follows.mono (h : Follows ok fits rest) (hok : ∀ v, ok v → ok' v)
    (hfits : ∀ v t, fits v t → fits' v t) : Follows ok' fits' rest := by
  cases h with
  | nil => exact .nil
  | cons hb h => exact .cons hb (h.mono hok hfits)

/-- What follows a line starts with an idle line, unless the text is at its end. -/
theorem Follows.ahead (h : Follows ok fits rest) : Ahead ok fits rest := by
  cases h with
  | nil => exact .ended (f := []) .nil (.blank (isGap_nil false))
  | @cons b t hb h =>
    have hidle : IsIdle ok (b ++ []) := hb.isIdle .nil
    rw [List.append_nil] at hidle
    exact h.idle hidle

theorem Follows.atLineEnd (h : Follows ok fits rest) : rest.atLineEnd = true := by
  cases h with
  | nil => rfl
  | cons hb => rcases hb with rfl | rfl <;> rfl

/-! ### Dropping idle lines -/

/-- Which lines are dropped: all blank ones, those comments that may be passed over, and no code. -/
structure Drops (ok : Nat → Prop) (droppable : Text → Bool) : Prop where
  blank : ∀ t : Text, t.isBlankLine = true → droppable t = true
  comment : ∀ t : Text, t.isCommentLine = true → ok t.indentation → droppable t = true
  empty : ∀ t : Text, droppable t = true → t.isEmptyLine = true

theorem drops_isEmptyLine (ok : Nat → Prop) : Drops ok isEmptyLine where
  blank t ht := by rw [isEmptyLine, ht, Bool.true_or]
  comment t ht _ := by rw [isEmptyLine, ht, Bool.or_true]
  empty _ ht := ht

variable {droppable : Text → Bool}

theorem IsIdleLine.not_isLineEnd (h : IsIdleLine ok l) : ∀ u ∈ l, u.isLineEnd = false := by
  cases h with
  | blank hg => exact fun u hu => isLineEnd_eq_false_of_isSpace (hg u hu)
  | comment hg _ hc =>
    intro u hu
    rcases List.mem_append.mp hu with hu | hu
    · exact isLineEnd_eq_false_of_isSpace (hg u hu)
    · rcases List.mem_cons.mp hu with rfl | hu
      · rfl
      · exact hc u hu

theorem isCommentLine_append (hg : IsGap false g) :
    isCommentLine (g ++ CodeUnit.hash :: t) = true := by
  rw [isCommentLine, dropWhile_append hg (avoids_cons.mpr rfl)]
  rfl

/-- The indentation ends with the first unit that is no space. -/
theorem indentation_append {u : CodeUnit} (hu : (u == CodeUnit.space) = false) :
    indentation (g ++ u :: t) = g.indentation := by
  rw [indentation, indentation, List.takeWhile_append, List.takeWhile_cons, hu]
  split
  · next h => rw [if_neg Bool.false_ne_true, List.append_nil, h]
  · rfl

/-- An idle line is dropped, whatever follows it. -/
theorem Drops.idleLine (hp : Drops ok droppable) (hl : IsIdleLine ok l)
    (ht : t.atLineEnd = true) : droppable (l ++ t) = true := by
  cases hl with
  | blank hg => exact hp.blank _ (isBlankLine_append hg ht)
  | comment hg hok hc =>
    rw [List.append_assoc, List.cons_append]
    refine hp.comment _ (isCommentLine_append hg) ?_
    rwa [indentation_append rfl]

/-- Idle lines are dropped. -/
theorem Drops.idle (hp : Drops ok droppable) (hf : IsIdle ok f) :
    droppedLength droppable false (f ++ t) = f.length + t.droppedLength droppable false := by
  induction hf with
  | nil => simp
  | @cons l b f hl hb _ ih =>
    have hend : (b ++ (f ++ t)).atLineEnd = true := by rcases hb with rfl | rfl <;> rfl
    rw [List.append_assoc, List.append_assoc, droppedLength_of_droppable (hp.idleLine hl hend)]
    have hline : ∀ u ∈ l, u ≠ CodeUnit.lineFeed := fun u hu =>
      ne_lineFeed_of_isLineEnd (hl.not_isLineEnd u hu)
    rcases hb with rfl | rfl
    · rw [List.singleton_append, droppedLength_line hline, ih]
      simp only [List.length_append, List.length_singleton]
      omega
    · -- The carriage return counts as the last unit of the line.
      have hreturn : ∀ u ∈ l ++ [CodeUnit.carriageReturn], u ≠ CodeUnit.lineFeed := by
        intro u hu
        rcases List.mem_append.mp hu with hu | hu
        · exact hline u hu
        · rw [List.mem_singleton.mp hu]
          decide
      have hsplit : l ++ ([CodeUnit.carriageReturn, CodeUnit.lineFeed] ++ (f ++ t))
          = (l ++ [CodeUnit.carriageReturn]) ++ CodeUnit.lineFeed :: (f ++ t) := by simp
      rw [hsplit, droppedLength_line hreturn, ih]
      simp only [List.length_append, List.length_cons, List.length_nil]
      omega

theorem Drops.lastLine (hp : Drops ok droppable) (hl : IsIdleLine ok l) :
    l.droppedLength droppable false = l.length := by
  have hdrop := hp.idleLine (t := []) hl rfl
  rw [List.append_nil] at hdrop
  rw [droppedLength_of_droppable hdrop]
  exact droppedLength_lastLine fun u hu => ne_lineFeed_of_isLineEnd (hl.not_isLineEnd u hu)

/-! ### Lines of code -/

theorem StartsCode.exists_cons (ht : t.StartsCode) :
    ∃ u r, t = u :: r ∧ u.startsGap true = false := by
  cases t with
  | nil => exact Bool.noConfusion ht
  | cons u t => exact ⟨u, t, rfl, by simpa [StartsWith] using ht⟩

theorem startsGap_true_eq_false {u : CodeUnit} (h : u.startsGap true = false) :
    u.isSpace = false ∧ u.isLineEnd = false ∧ (u == CodeUnit.hash) = false := by
  rw [CodeUnit.startsGap, Bool.or_eq_false_iff, Bool.or_eq_false_iff] at h
  exact ⟨h.1.1, h.1.2, h.2⟩

theorem StartsCode.avoids_isSpace (ht : t.StartsCode) : t.Avoids CodeUnit.isSpace := by
  obtain ⟨u, r, rfl, hu⟩ := ht.exists_cons
  exact (startsGap_true_eq_false hu).1

theorem isGap_replicate (v : Nat) : IsGap false (spaces v) := by
  intro u hu
  rw [List.eq_of_mem_replicate hu]
  rfl

theorem indentation_replicate (v : Nat) :
    (spaces v).indentation = v := by
  rw [indentation, List.takeWhile_replicate, if_pos (beq_self_eq_true _), List.length_replicate]

theorem indentation_code (v : Nat) (ht : t.StartsCode) :
    indentation (spaces v ++ t) = v := by
  obtain ⟨u, r, rfl, hu⟩ := ht.exists_cons
  have hspace : (u == CodeUnit.space) = false := by
    have h := (startsGap_true_eq_false hu).1
    rw [CodeUnit.isSpace, Bool.or_eq_false_iff] at h
    exact h.1
  rw [indentation_append hspace, indentation_replicate]

theorem dropWhile_code (v : Nat) (ht : t.StartsCode) :
    (spaces v ++ t).dropWhile CodeUnit.isSpace = t := by
  obtain ⟨u, r, rfl, hu⟩ := ht.exists_cons
  exact dropWhile_append (isGap_replicate v) (startsGap_true_eq_false hu).1

theorem isCommentLine_code (v : Nat) (ht : t.StartsCode) :
    isCommentLine (spaces v ++ t) = false := by
  rw [isCommentLine, dropWhile_code v ht]
  obtain ⟨u, r, rfl, hu⟩ := ht.exists_cons
  simpa using (startsGap_true_eq_false hu).2.2

theorem isEmptyLine_code (v : Nat) (ht : t.StartsCode) :
    isEmptyLine (spaces v ++ t) = false := by
  rw [isEmptyLine, isCommentLine_code v ht, Bool.or_false, isBlankLine, dropWhile_code v ht]
  obtain ⟨u, r, rfl, hu⟩ := ht.exists_cons
  exact (startsGap_true_eq_false hu).2.1

/-- A line of code is not dropped. -/
theorem Drops.codeLine (hp : Drops ok droppable) (v : Nat) (ht : t.StartsCode) :
    droppedLength droppable false (spaces v ++ t) = 0 := by
  have hkeep : droppable (spaces v ++ t) = false := by
    rw [← Bool.not_eq_true]
    intro h
    have hempty := hp.empty _ h
    rw [isEmptyLine_code v ht] at hempty
    exact Bool.noConfusion hempty
  cases hline : spaces v ++ t with
  | nil => rfl
  | cons u r =>
    rw [hline] at hkeep
    rw [droppedLength, Bool.false_or, hkeep, if_neg Bool.false_ne_true]

theorem avoids_isLineEnd_code (v : Nat) (ht : t.StartsCode) :
    Text.Avoids CodeUnit.isLineEnd (spaces v ++ t) := by
  cases v with
  | zero =>
    obtain ⟨u, r, rfl, hu⟩ := ht.exists_cons
    exact (startsGap_true_eq_false hu).2.1
  | succ v => rfl

/-- What is left behind the lines that are dropped: nothing, or the next line of code. -/
theorem Drops.ahead (hp : Drops ok droppable) (h : Ahead ok fits t) :
    t.drop (t.droppedLength droppable false) = [] ∨
      ∃ v, ∃ r : Text, t.drop (t.droppedLength droppable false) = spaces v ++ r ∧
        r.StartsCode ∧ fits v r := by
  cases h with
  | ended hf hl =>
    left
    rw [hp.idle hf, hp.lastLine hl, List.drop_eq_nil_of_le (by rw [List.length_append])]
  | code hf ht hfits =>
    right
    refine ⟨_, _, ?_, ht, hfits⟩
    rw [hp.idle hf, hp.codeLine _ ht, Nat.add_zero, List.drop_left]

/-! ### The distance to the next line of code -/

theorem codeDistance_of_avoids (ht : t.Avoids CodeUnit.isLineEnd) :
    t.codeDistance = t.emptyLinesLength := by
  have hbreak : t.lineBreakLength = 0 := by
    cases t with
    | nil => rfl
    | cons u t =>
      rw [avoids_cons, CodeUnit.isLineEnd, Bool.or_eq_false_iff] at ht
      rw [lineBreakLength, ht.1, ht.2, Bool.false_and]
      rfl
  rw [codeDistance, hbreak, List.drop_zero, Nat.zero_add]

theorem lineBreakLength_append (hb : IsBreak b) : lineBreakLength (b ++ t) = b.length := by
  rcases hb with rfl | rfl <;> rfl

theorem codeDistance_append (hb : IsBreak b) :
    codeDistance (b ++ t) = b.length + t.emptyLinesLength := by
  rw [codeDistance, lineBreakLength_append hb, List.drop_left]

/-- Whether the first line is empty or not, idle lines belong to the distance. -/
theorem codeDistance_idle (hf : IsIdle ok f) (ht : t.Avoids CodeUnit.isLineEnd) :
    codeDistance (f ++ t) = f.length + t.emptyLinesLength := by
  have hp := drops_isEmptyLine ok
  by_cases hfirst : (f ++ t).Avoids CodeUnit.isLineEnd
  · rw [codeDistance_of_avoids hfirst, emptyLinesLength, hp.idle hf]
    rfl
  · -- the text starts with a line end, which is that of an empty first line
    cases hf with
    | nil => exact absurd ht hfirst
    | @cons l b f hl hb hf =>
      cases l with
      | nil =>
        rw [List.nil_append, List.append_assoc, codeDistance_append hb, emptyLinesLength, hp.idle hf,
          List.length_append, Nat.add_assoc]
        rfl
      | cons u l => exact absurd (hl.not_isLineEnd u List.mem_cons_self) hfirst

/-- Idle lines up to the end of the text belong to the distance as a whole. -/
theorem codeDistance_ended (hf : IsIdle ok f) (hl : IsIdleLine ok l) :
    codeDistance (f ++ l) = (f ++ l).length := by
  have hline : l.Avoids CodeUnit.isLineEnd := by
    cases l with
    | nil => rfl
    | cons u l => exact hl.not_isLineEnd u List.mem_cons_self
  rw [codeDistance_idle hf hline, emptyLinesLength, (drops_isEmptyLine ok).lastLine hl,
    List.length_append]

theorem drop_codeDistance_ahead (h : Ahead ok fits t) :
    t.drop t.codeDistance = [] ∨
      ∃ v, ∃ r : Text, t.drop t.codeDistance = spaces v ++ r ∧ r.StartsCode ∧
        fits v r := by
  have hp := drops_isEmptyLine ok
  cases h with
  | @ended f l hf hl =>
    left
    rw [codeDistance_ended hf hl, List.drop_length]
  | @code f t v hf ht hfits =>
    right
    refine ⟨v, t, ?_, ht, hfits⟩
    rw [codeDistance_idle hf (avoids_isLineEnd_code v ht), emptyLinesLength, hp.codeLine v ht,
      Nat.add_zero, List.drop_left]

end Text

namespace Reader

open Text

variable {ok : Nat → Prop} {fits : Nat → Text → Prop} {f t : Text} {w : Nat}
  {accept : Text → Bool}

/-- The next line of code is found where it has the indentation and goes on as asked. -/
theorem seekLine_append (hf : IsIdle ok f) (ht : t.StartsCode) (haccept : accept t = true) :
    seekLine w accept (f ++ (spaces w ++ t)) = .took true (f.length + w) := by
  have hdistance : codeDistance (f ++ (spaces w ++ t)) = f.length := by
    rw [codeDistance_idle hf (avoids_isLineEnd_code w ht), emptyLinesLength,
      (drops_isEmptyLine ok).codeLine w ht, Nat.add_zero]
  have hline : (spaces w ++ t).drop w = t :=
    List.drop_left' List.length_replicate
  simp only [seekLine, hdistance, List.drop_left, indentation_code w ht, hline, haccept,
    beq_self_eq_true, Bool.and_self, if_true]

/-- No line is found where the next line of code is another one. -/
theorem seekLine_of_ahead (h : Ahead ok fits t) (hend : accept [] = false)
    (hfits : ∀ r, fits w r → accept r = false) : seekLine w accept t = .took false 0 := by
  unfold seekLine
  rcases drop_codeDistance_ahead h with hnil | ⟨v, r, hline, hr, hv⟩
  · simp only [hnil, List.drop_nil, hend, Bool.and_false, Bool.false_eq_true, if_false]
  · rw [if_neg]
    rw [hline, Bool.and_eq_true, beq_iff_eq, indentation_code v hr]
    rintro ⟨rfl, haccept⟩
    rw [List.drop_left' List.length_replicate, hfits r hv] at haccept
    exact Bool.noConfusion haccept

/-- The indentation of the next line of code, where it is deep enough. -/
theorem bodyIndent_append {header : Nat} (hf : IsIdle ok f) (ht : t.StartsCode)
    (hw : header < w) :
    bodyIndent header (f ++ (spaces w ++ t)) = .took w 0 := by
  have hp := drops_isEmptyLine ok
  have hdistance : emptyLinesLength (f ++ (spaces w ++ t)) = f.length := by
    rw [emptyLinesLength, hp.idle hf, hp.codeLine w ht, Nat.add_zero]
  have hne : (spaces w ++ t).isEmpty = false := by
    obtain ⟨u, r, rfl, -⟩ := ht.exists_cons
    simp
  simp only [bodyIndent, hdistance, List.drop_left, hne, indentation_code w ht, if_pos hw,
    Bool.false_eq_true, if_false]

end Reader

end GDScript
