import GDScript.Proofs.Lexeme.Word
import GDScript.Proofs.Taking
import GDScript.Reader.Layout

/-!
# Gaps

Between two tokens of a line there may be spaces and tabs; inside brackets there may also be line
breaks and comments, of which each ends with its line. `Text.IsGap` says so for both places, and a
gap that nothing goes on with is what `Grammar.gap` takes.
-/

namespace GDScript

/-- A unit that a gap may start with, inside brackets or outside of them. -/
def CodeUnit.startsGap : (inBrackets : Bool) → CodeUnit → Bool
  | false, u => u.isSpace
  | true, u => u.isSpace || u.isLineEnd || u == CodeUnit.hash

namespace Text

/-- White space, line breaks and comments that end with their line. -/
inductive IsLayout : Text → Prop where
  | nil : IsLayout []
  | unit {u : CodeUnit} {g : Text} (hu : u.isSpace = true ∨ u.isLineEnd = true)
      (hg : IsLayout g) : IsLayout (u :: g)
  | comment {c : Text} {u : CodeUnit} {g : Text} (hc : ∀ v ∈ c, v.isLineEnd = false)
      (hu : u.isLineEnd = true) (hg : IsLayout g) : IsLayout (CodeUnit.hash :: (c ++ u :: g))

/-- What may stand between two tokens, inside brackets or outside of them. -/
def IsGap : (inBrackets : Bool) → Text → Prop
  | false, g => ∀ u ∈ g, u.isSpace = true
  | true, g => IsLayout g

/-- There need not be a gap. -/
theorem isGap_nil (b : Bool) : IsGap b [] := by
  cases b with
  | false => exact fun u hu => absurd hu (by simp)
  | true => exact .nil

/-- The length of the gap at the start of a text. -/
def gapLengthIn : (inBrackets : Bool) → Text → Nat
  | false, t => gapLength t
  | true, t => layoutLength false t

/-- A space starts a gap inside brackets too. -/
theorem startsGap_true_of_isSpace {u : CodeUnit} (h : u.isSpace = true) :
    CodeUnit.startsGap true u = true := by
  simp [CodeUnit.startsGap, h]

/-- The first unit of a gap is one that a gap may start with. -/
theorem IsGap.startsGap {b : Bool} {u : CodeUnit} {g : Text} (h : IsGap b (u :: g)) :
    u.startsGap b = true := by
  cases b with
  | false => exact h u List.mem_cons_self
  | true =>
    cases h with
    | unit hu _ => rcases hu with hu | hu <;> simp [CodeUnit.startsGap, hu]
    | comment => rfl

/-- What starts a gap anywhere starts one inside brackets. -/
theorem startsGap_true_of {b : Bool} {u : CodeUnit} (h : u.startsGap b = true) :
    u.startsGap true = true := by
  cases b with
  | false => exact startsGap_true_of_isSpace h
  | true => exact h

/-- Spaces and tabs are a gap everywhere. -/
theorem isGap_of_false {b : Bool} {g : Text} (h : IsGap false g) : IsGap b g := by
  cases b with
  | false => exact h
  | true =>
    change IsLayout g
    induction g with
    | nil => exact .nil
    | cons u g ih =>
      exact .unit (.inl (h u List.mem_cons_self)) (ih fun v hv => h v (List.mem_cons_of_mem u hv))

/-- A gap of spaces ends where no space follows. -/
theorem gapLength_append {g rest : Text} (hg : ∀ u ∈ g, u.isSpace = true)
    (hrest : Avoids CodeUnit.isSpace rest) : gapLength (g ++ rest) = g.length := by
  rw [gapLength, takeWhile_append hg hrest]

/-- A comment is passed over up to the end of its line. -/
theorem layoutLength_comment {c t : Text} {u : CodeUnit} (hc : ∀ v ∈ c, v.isLineEnd = false)
    (hu : u.isLineEnd = true) :
    layoutLength true (c ++ u :: t) = c.length + 1 + layoutLength false t := by
  induction c with
  | nil => rw [List.nil_append, layoutLength, if_pos hu, List.length_nil]; omega
  | cons v c ih =>
    have hv := hc v List.mem_cons_self
    rw [List.cons_append, layoutLength, hv, if_neg Bool.false_ne_true, if_pos rfl,
      ih fun w hw => hc w (List.mem_cons_of_mem v hw), List.length_cons]
    omega

/-- A space ends no line. -/
theorem isLineEnd_eq_false_of_isSpace {u : CodeUnit} (h : u.isSpace = true) :
    u.isLineEnd = false := by
  simp only [CodeUnit.isSpace, Bool.or_eq_true, beq_iff_eq] at h
  rcases h with rfl | rfl <;> decide

/-- A gap inside brackets ends where nothing more of it follows. -/
theorem layoutLength_append {g rest : Text} (hg : IsLayout g)
    (hrest : Avoids (CodeUnit.startsGap true) rest) :
    layoutLength false (g ++ rest) = g.length := by
  -- a comment is left by the end of its line, which belongs to the gap
  induction hg with
  | nil =>
    cases rest with
    | nil => rfl
    | cons u rest =>
      rw [avoids_cons, CodeUnit.startsGap, Bool.or_eq_false_iff, Bool.or_eq_false_iff] at hrest
      rw [List.nil_append, layoutLength, hrest.1.1, hrest.1.2, hrest.2]
      rfl
  | @unit u g hu hg ih =>
    rw [List.cons_append, layoutLength, ih, List.length_cons]
    rcases hu with hu | hu
    · simp [hu, isLineEnd_eq_false_of_isSpace hu]
    · simp [hu]
  | @comment c u g hc hu hg ih =>
    have hhash : layoutLength false (CodeUnit.hash :: (c ++ u :: (g ++ rest)))
        = layoutLength true (c ++ u :: (g ++ rest)) + 1 := by
      rw [layoutLength]; rfl
    rw [List.cons_append, List.append_assoc, List.cons_append, hhash,
      layoutLength_comment hc hu, ih, List.length_cons, List.length_append, List.length_cons]
    omega

/-- A gap ends where nothing more of it follows. -/
theorem gapLengthIn_append {b : Bool} {g rest : Text} (hg : IsGap b g)
    (hrest : Avoids (CodeUnit.startsGap b) rest) : gapLengthIn b (g ++ rest) = g.length := by
  cases b with
  | false => exact gapLength_append hg hrest
  | true => exact layoutLength_append hg hrest

/-- No gap is longer than the text. -/
theorem layoutLength_le (inComment : Bool) (t : Text) : layoutLength inComment t ≤ t.length := by
  induction t generalizing inComment with
  | nil => cases inComment <;> simp [layoutLength]
  | cons u t ih =>
    have hinside := ih true
    have houtside := ih false
    rw [layoutLength, List.length_cons]
    repeat' split
    all_goals omega

theorem gapLengthIn_le (b : Bool) (t : Text) : gapLengthIn b t ≤ t.length := by
  cases b with
  | false => exact (List.takeWhile_prefix _).length_le
  | true => exact layoutLength_le false t

end Text

namespace Grammar

variable {R : Type → Type} [RuleSet R] {room n : Nat} {rest : Text}

/-- A gap of spaces is taken as a whole. -/
theorem takes_skipSpaces {g : Text} (hg : Text.IsGap false g)
    (hrest : rest.Avoids CodeUnit.isSpace) :
    Takes room n (skipSpaces : Grammar R Unit) g rest fun _ => True :=
  takes_read (by rw [Reader.skipSpaces, Reader.skip, Text.gapLength_append hg hrest]) trivial

/-- Where a gap starts, `gap` takes as much as there is. -/
theorem takes_gap_of_length {g : Text} (h : Text.gapLengthIn (n != 0) (g ++ rest) = g.length) :
    Takes room n (gap : Grammar R Unit) g rest fun _ => True := by
  refine Takes.look_bind takes_nesting fun found hfound => ?_
  rw [hfound]
  -- outside of brackets only spaces are looked for
  split
  · next hn =>
    subst hn
    exact takes_read (by rw [Reader.skipSpaces, Reader.skip]; exact congrArg _ h) trivial
  · next hn =>
    have hb : (n != 0) = true := by simpa using hn
    rw [hb] at h
    exact takes_read (by rw [Reader.skipLayout, Reader.skip]; exact congrArg _ h) trivial

/-- Whatever is ahead, `gap` takes as much of it as is a gap. -/
theorem takes_gap_ahead :
    Takes room n (gap : Grammar R Unit) (rest.take (Text.gapLengthIn (n != 0) rest))
      (rest.drop (Text.gapLengthIn (n != 0) rest)) fun _ => True := by
  refine takes_gap_of_length ?_
  rw [List.take_append_drop, List.length_take, Nat.min_eq_left (Text.gapLengthIn_le _ _)]

/-- A gap is taken as a whole, inside brackets and outside of them. -/
theorem takes_gap {g : Text} (hg : Text.IsGap (n != 0) g)
    (hrest : rest.Avoids (CodeUnit.startsGap (n != 0))) :
    Takes room n (gap : Grammar R Unit) g rest fun _ => True :=
  takes_gap_of_length (Text.gapLengthIn_append hg hrest)

end Grammar

end GDScript
