import GDScript.Proofs.Yielding
import Mathlib.Data.List.Induction

/-!
# Places in a text

A cursor that has come from the start of a text stands in it at the offset that it says
(`Cursor.IsIn`), and stays in it wherever it goes. Its place is the one that what has been read leads
to (`Cursor.StandsIn`).
-/

namespace GDScript

/-- The cursor stands in the text, at the offset that it says. -/
structure Cursor.IsIn (source : Text) (c : Cursor) : Prop where
  offset_le : c.location.offset ≤ source.length
  ahead_eq : c.ahead = source.drop c.location.offset

namespace Cursor

variable {source : Text} {c c' : Cursor}

/-- The start of a text stands in it. -/
theorem isIn_ofText (source : Text) : (ofText source).IsIn source := ⟨Nat.zero_le _, rfl⟩

/-- A cursor advances by as many units as are ahead, at most. -/
theorem offset_advanceBy (k : Nat) (c : Cursor) :
    (c.advanceBy k).location.offset = c.location.offset + min k c.ahead.length := by
  induction k generalizing c with
  | zero => simp
  | succ k ih =>
    rw [advanceBy]
    split
    · next h => simp [h]
    · next u rest h =>
      have hoffset : c.advance.location.offset = c.location.offset + 1 := by
        rw [advance, h]
        exact Location.offset_after _ _
      have hahead : c.ahead.length = c.advance.ahead.length + 1 := by
        rw [ahead_advance, h]
        rfl
      rw [ih, hoffset, hahead]
      omega

theorem IsIn.advanceBy (h : c.IsIn source) (k : Nat) : (c.advanceBy k).IsIn source := by
  obtain ⟨hle, hahead⟩ := h
  have hlength : c.ahead.length = source.length - c.location.offset := by
    rw [hahead, List.length_drop]
  refine ⟨by rw [offset_advanceBy]; omega, ?_⟩
  rw [ahead_advanceBy, offset_advanceBy, hahead, List.drop_drop, ← hahead]
  -- an advance beyond the end of the text leaves nothing on either side
  by_cases hk : k ≤ c.ahead.length
  · rw [Nat.min_eq_left hk]
  · rw [List.drop_eq_nil_of_le (by omega), List.drop_eq_nil_of_le (by omega)]

/-- A cursor that is reached from one in the text stands in it. -/
theorem IsIn.reaches (h : c.IsIn source) (hc : c.Reaches c') : c'.IsIn source := by
  obtain ⟨k, -, rfl⟩ := hc
  exact h.advanceBy k

/-- No cursor is reached by going back. -/
theorem Reaches.offset_le (h : c.Reaches c') : c.location.offset ≤ c'.location.offset := by
  obtain ⟨k, -, rfl⟩ := h
  rw [offset_advanceBy]
  omega

end Cursor

/-! ### Places -/

namespace Location

/-- The place behind a text, of which the last unit comes first. -/
def behind (before : Text) : Location := before.foldr (fun u l => l.after u) .first

theorem after_lineFeed (l : Location) :
    l.after CodeUnit.lineFeed = ⟨l.line + 1, 1, l.offset + 1⟩ := rfl

theorem after_of_ne {u : CodeUnit} (hu : u ≠ CodeUnit.lineFeed) (l : Location) :
    l.after u = ⟨l.line, l.column + 1, l.offset + 1⟩ := by
  rw [after, if_neg (by simpa using hu)]

/-- The place behind a text, one unit at a time. -/
theorem behind_reverse_concat (s : Text) (u : CodeUnit) :
    behind (s ++ [u]).reverse = (behind s.reverse).after u := by
  rw [List.reverse_append, List.reverse_singleton, List.singleton_append]
  rfl

/-- The offset counts the units. -/
theorem offset_behind (s : Text) : (behind s.reverse).offset = s.length := by
  induction s using List.reverseRecOn with
  | nil => rfl
  | append_singleton s u ih =>
    rw [behind_reverse_concat, offset_after, ih, List.length_append, List.length_singleton]

/-- Each line feed starts a line. -/
theorem line_behind (s : Text) : (behind s.reverse).line = 1 + s.count CodeUnit.lineFeed := by
  induction s using List.reverseRecOn with
  | nil => rfl
  | append_singleton s u ih =>
    rw [behind_reverse_concat, List.count_append]
    by_cases hu : u = CodeUnit.lineFeed
    · rw [hu, after_lineFeed, ih, List.count_singleton_self]
      rfl
    · have hcount : List.count CodeUnit.lineFeed [u] = 0 :=
        List.count_singleton.trans (by simpa using hu)
      rw [after_of_ne hu, hcount]
      exact ih

end Location

/-- The cursor stands in the text, at the place that what has been read leads to. -/
structure Cursor.StandsIn (source : Text) (c : Cursor) : Prop where
  source_eq : c.source = source
  location_eq : c.location = Location.behind c.behind

namespace Cursor

variable {source : Text} {c : Cursor}

theorem standsIn_ofText (source : Text) : (ofText source).StandsIn source := ⟨rfl, rfl⟩

/-- Advancing keeps the place in step with what has been read. -/
theorem StandsIn.advanceBy (h : c.StandsIn source) (k : Nat) : (c.advanceBy k).StandsIn source := by
  induction k generalizing c with
  | zero => exact h
  | succ k ih =>
    rw [Cursor.advanceBy]
    split
    · exact h
    · next u rest hahead =>
      -- one unit at a time: the place behind it is that of the text read so far
      refine ih ⟨(source_advance c).trans h.source_eq, ?_⟩
      rw [advance, hahead]
      exact congrArg (Location.after · u) h.location_eq

end Cursor

end GDScript
