import GDScript.Proofs.Pairing.File
import GDScript.Proofs.Position
import GDScript.Proofs.Split

/-!
# Texts that are laid out anew

A `Layout` says how wide the lines of a text are indented, and whether a return stands before each
line feed. `Layout.anew` lays a text out from the start of a line on, `Layout.within` from inside a
line on. What stands on the lines stays: within a line both texts are the same
(`Layout.sameLine_within`), each line of the one text becomes a line of the other one
(`Layout.drop_lineLength_anew`), and what is passed over in brackets or read between quotes is laid
out anew as well. So a text and its new layout are a pairing, `Layout.pairing`.
-/

namespace GDScript

open Grammar

/-! ### Indentation and lines -/

namespace Text

/-- Induction over a text in which the indentation behind a line feed is passed at once. -/
@[elab_as_elim]
theorem induction_lines {motive : Text → Prop} (nil : motive [])
    (unit : ∀ u t, u ≠ CodeUnit.lineFeed → motive t → motive (u :: t))
    (lineFeed : ∀ w m, m.Avoids (· == CodeUnit.space) → motive m →
      motive (CodeUnit.lineFeed :: (spaces w ++ m))) (t : Text) : motive t := by
  -- on the length: a line feed takes the whole indentation of the next line with it
  induction hlength : t.length using Nat.strong_induction_on generalizing t with
  | _ length ih =>
    cases t with
    | nil => exact nil
    | cons u t =>
      by_cases hu : u = CodeUnit.lineFeed
      · obtain ⟨m, ht, hm⟩ := exists_indentation t
        generalize indentation t = w at ht
        rw [hu, ht]
        refine lineFeed w m hm (ih m.length ?_ m rfl)
        rw [← hlength, ht, List.length_cons, List.length_append]
        omega
      · exact unit u t hu (ih t.length (hlength ▸ Nat.lt_succ_self _) t rfl)

end Text

/-- How wide the lines of each indentation are, and what stands before each line feed. -/
structure Layout where
  width : Nat → Nat
  returns : Text
  width_zero : width 0 = 0
  width_lt {m n : Nat} (h : m < n) : width m < width n
  returns_eq : returns = [] ∨ returns = [CodeUnit.carriageReturn]

namespace Layout

variable (y : Layout) {s t : Text} {u : CodeUnit}

/-- The new layout of a text that starts inside a line. -/
def within : Text → Text
  | [] => []
  | u :: t =>
    if u == CodeUnit.lineFeed then
      y.returns ++ CodeUnit.lineFeed ::
        (Text.spaces (y.width (Text.indentation t)) ++ (within t).drop (Text.indentation t))
    else u :: within t

/-- The new layout of a text that starts at the start of a line. -/
def anew (t : Text) : Text :=
  Text.spaces (y.width t.indentation) ++ (y.within t).drop t.indentation

/-- No return stands in the text where the layout adds some. -/
def Fits (t : Text) : Prop := y.returns ≠ [] → CodeUnit.carriageReturn ∉ t

variable {y}

theorem width_pos {w : Nat} (hw : 0 < w) : 0 < y.width w :=
  Nat.lt_of_le_of_lt (Nat.zero_le _) (y.width_lt hw)

theorem Fits.drop (h : y.Fits t) (k : Nat) : y.Fits (t.drop k) :=
  fun hne hmem => h hne (List.mem_of_mem_drop hmem)

variable (y)

/-! ### Lines -/

@[simp] theorem within_nil : y.within [] = [] := rfl

theorem within_cons (hu : u ≠ CodeUnit.lineFeed) (t : Text) : y.within (u :: t) = u :: y.within t := by
  rw [within, if_neg (by simpa using hu)]

theorem within_lineFeed (t : Text) :
    y.within (CodeUnit.lineFeed :: t) = y.returns ++ CodeUnit.lineFeed :: y.anew t := by
  rw [within, if_pos (beq_self_eq_true _)]
  rfl

/-- What stands on a line stays. -/
theorem within_append (hs : ∀ u ∈ s, u ≠ CodeUnit.lineFeed) (t : Text) :
    y.within (s ++ t) = s ++ y.within t := by
  induction s with
  | nil => rfl
  | cons u s ih =>
    rw [List.cons_append, y.within_cons (hs u List.mem_cons_self),
      ih fun v hv => hs v (List.mem_cons_of_mem u hv), List.cons_append]

theorem within_eq_self (hs : ∀ u ∈ s, u ≠ CodeUnit.lineFeed) : y.within s = s := by
  have happend := y.within_append hs []
  rwa [List.append_nil, within_nil, List.append_nil] at happend

/-- The indentation is changed, and what follows it is laid out from inside the line on. -/
theorem anew_spaces (w : Nat) (ht : t.Avoids (· == CodeUnit.space)) :
    y.anew (Text.spaces w ++ t) = Text.spaces (y.width w) ++ y.within t := by
  rw [anew, Text.indentation_spaces w ht, y.within_append (Text.spaces_ne_lineFeed w),
    Text.drop_spaces]

theorem anew_nil : y.anew [] = [] := by
  have h := y.anew_spaces 0 (Text.avoids_nil _)
  rw [y.width_zero] at h
  exact h

/-- The line feeds are in the same places, so the same texts start with a space. -/
theorem avoids_within (ht : t.Avoids (· == CodeUnit.space)) :
    (y.within t).Avoids (· == CodeUnit.space) := by
  cases t with
  | nil => exact Text.avoids_nil _
  | cons u t =>
    by_cases hu : u = CodeUnit.lineFeed
    · rw [hu, within_lineFeed]
      rcases y.returns_eq with h | h <;> rw [h] <;> rfl
    · rw [y.within_cons hu]
      exact ht

theorem indentation_anew (t : Text) : (y.anew t).indentation = y.width t.indentation := by
  obtain ⟨m, ht, hm⟩ := t.exists_indentation
  conv_lhs => rw [ht, y.anew_spaces _ hm, Text.indentation_spaces _ (y.avoids_within hm)]

theorem drop_indentation_anew (t : Text) :
    (y.anew t).drop (y.anew t).indentation = y.within (t.drop t.indentation) := by
  obtain ⟨m, ht, hm⟩ := t.exists_indentation
  have hdrop : t.drop t.indentation = m := by
    conv_lhs => rw [ht, Text.indentation_spaces _ hm, Text.drop_spaces]
  rw [indentation_anew, hdrop, ht, y.anew_spaces _ hm, Text.indentation_spaces _ hm,
    Text.drop_spaces]

theorem sameLine_within (t : Text) : t.SameLine (y.within t) := by
  have hstop : ∀ v ∈ CodeUnit.lineEnds, ∀ s : Text, ∀ u ∈ (v :: s).head?, u ∈ CodeUnit.lineEnds := by
    rintro v hv s u ⟨⟩
    exact hv
  induction t with
  | nil => exact .refl []
  | cons u t ih =>
    by_cases hu : u = CodeUnit.lineFeed
    · rw [hu, within_lineFeed]
      rcases y.returns_eq with h | h <;> rw [h] <;>
        exact .stop (hstop _ (by decide) _) (hstop _ (by decide) _)
    · rw [y.within_cons hu]
      by_cases hline : u ∈ CodeUnit.lineEnds
      · exact .stop (by simpa using hline) (by simpa using hline)
      · exact .unit hline ih

/-- Where something else is next, a line ends in both texts. -/
theorem head?_within_cases (t : Text) : (y.within t).head? = t.head? ∨
    ∃ u v, t.head? = some u ∧ (y.within t).head? = some v ∧ u.isLineEnd = true ∧
      v.isLineEnd = true := by
  cases t with
  | nil => exact .inl rfl
  | cons u t =>
    by_cases hu : u = CodeUnit.lineFeed
    · rw [hu, within_lineFeed]
      rcases y.returns_eq with h | h <;> rw [h] <;> exact .inr ⟨_, _, rfl, rfl, rfl, rfl⟩
    · rw [y.within_cons hu]
      exact .inl rfl

/-- What is unexpected in one text is in the other one, and is described alike. -/
theorem unexpected_within (what t : Text) :
    Complaint.unexpected what (y.within t).head? = Complaint.unexpected what t.head? := by
  rcases y.head?_within_cases t with h | ⟨u, v, hu, hv, hlu, hlv⟩
  · rw [h]
  · rw [hu, hv, Complaint.unexpected, Complaint.unexpected, Text.describe, Text.describe, if_pos hlu,
      if_pos hlv]
    rfl

/-- Each line becomes a line. -/
theorem drop_lineLength_anew (t : Text) :
    (y.anew t).drop (y.anew t).lineLength = y.anew (t.drop t.lineLength) := by
  obtain ⟨m, ht, hm⟩ := t.exists_indentation
  generalize t.indentation = w at ht
  obtain ⟨l, rest, hl, -, ⟨rfl, -⟩ | rfl⟩ := m.exists_line
  · -- the last line
    have hline : ∀ v : Nat, ∀ u ∈ Text.spaces v ++ m, u ≠ CodeUnit.lineFeed := fun v =>
      List.forall_mem_append.mpr ⟨Text.spaces_ne_lineFeed v, hl⟩
    rw [ht, y.anew_spaces w hm, y.within_eq_self hl, Text.drop_lineLength_last (hline _),
      Text.drop_lineLength_last (hline _), anew_nil]
  · -- the line keeps its end: only its indentation and the return in front of the feed change
    have hreturns : ∀ u ∈ y.returns, u ≠ CodeUnit.lineFeed := by
      rcases y.returns_eq with h | h <;> rw [h] <;> decide
    have hline : ∀ u ∈ Text.spaces w ++ l, u ≠ CodeUnit.lineFeed :=
      List.forall_mem_append.mpr ⟨Text.spaces_ne_lineFeed w, hl⟩
    have hline' : ∀ u ∈ Text.spaces (y.width w) ++ l ++ y.returns, u ≠ CodeUnit.lineFeed :=
      List.forall_mem_append.mpr
        ⟨List.forall_mem_append.mpr ⟨Text.spaces_ne_lineFeed _, hl⟩, hreturns⟩
    have hanew : y.anew t
        = Text.spaces (y.width w) ++ l ++ y.returns ++ CodeUnit.lineFeed :: y.anew rest := by
      rw [ht, y.anew_spaces w hm, y.within_append hl, within_lineFeed, List.append_assoc,
        List.append_assoc]
    rw [hanew, Text.drop_lineLength_append hline', ht, ← List.append_assoc,
      Text.drop_lineLength_append hline]

/-- Where no returns are added the same texts start with a line feed. -/
theorem head?_within (hreturns : y.returns = []) (t : Text) :
    ((y.within t).head? == some CodeUnit.lineFeed) = (t.head? == some CodeUnit.lineFeed) := by
  cases t with
  | nil => rfl
  | cons u t =>
    by_cases hu : u = CodeUnit.lineFeed
    · rw [hu, within_lineFeed, hreturns]
      rfl
    · rw [y.within_cons hu]
      rfl

variable {y}

/-- Line breaks are in the same places. -/
theorem lineBreakLength_within (hfits : y.Fits t) :
    t.lineBreakLength = 0 ↔ (y.within t).lineBreakLength = 0 := by
  cases t with
  | nil => exact Iff.rfl
  | cons u t =>
    by_cases hu : u = CodeUnit.lineFeed
    · have hone : Text.lineBreakLength (u :: t) ≠ 0 := by
        rw [hu]
        exact Nat.one_ne_zero
      have hbreak : (y.within (u :: t)).lineBreakLength ≠ 0 := by
        rw [hu, within_lineFeed]
        rcases y.returns_eq with h | h <;> rw [h]
        · exact Nat.one_ne_zero
        · exact Nat.succ_ne_zero 1
      exact ⟨fun h => absurd h hone, fun h => absurd h hbreak⟩
    · rw [y.within_cons hu, Text.lineBreakLength, Text.lineBreakLength]
      by_cases hreturn : u = CodeUnit.carriageReturn
      · -- a return that stands in the text already is never given another one
        have hreturns : y.returns = [] := by
          by_contra hne
          exact hfits hne (hreturn ▸ List.mem_cons_self)
        rw [y.head?_within hreturns]
      · rw [beq_eq_false_iff_ne.mpr hreturn, Bool.false_and, Bool.false_and]

theorem lineBreakLength_anew (hfits : y.Fits t) :
    t.lineBreakLength = 0 ↔ (y.anew t).lineBreakLength = 0 := by
  have hspace : ∀ (w : Nat) (m : Text), 0 < w → Text.lineBreakLength (Text.spaces w ++ m) = 0 := by
    intro w m hw
    obtain ⟨v, rfl⟩ := Nat.exists_eq_succ_of_ne_zero (Nat.ne_of_gt hw)
    rfl
  obtain ⟨m, ht, hm⟩ := t.exists_indentation
  generalize t.indentation = w at ht
  rw [ht] at hfits
  rw [ht, y.anew_spaces w hm]
  rcases Nat.eq_zero_or_pos w with rfl | hw
  · rw [y.width_zero]
    exact lineBreakLength_within hfits
  · rw [hspace w m hw, hspace _ _ (width_pos hw)]

variable (y)

/-! ### Brackets and quotes -/

theorem layoutLength_spaces (w : Nat) (t : Text) :
    Text.layoutLength false (Text.spaces w ++ t) = w + Text.layoutLength false t := by
  induction w with
  | zero => exact (Nat.zero_add _).symm
  | succ w ih =>
    have hunit : Text.layoutLength false (CodeUnit.space :: (Text.spaces w ++ t))
        = Text.layoutLength false (Text.spaces w ++ t) + 1 := rfl
    rw [Text.spaces, List.replicate_succ, List.cons_append, hunit, ih]
    omega

theorem layoutLength_returns (inComment : Bool) (t : Text) :
    Text.layoutLength inComment (y.returns ++ CodeUnit.lineFeed :: t)
      = y.returns.length + 1 + Text.layoutLength false t := by
  rcases y.returns_eq with h | h <;> rw [h]
  · have hlineFeed : Text.layoutLength inComment (CodeUnit.lineFeed :: t)
        = Text.layoutLength false t + 1 := rfl
    rw [List.nil_append, hlineFeed, List.length_nil]
    omega
  · have hreturn : Text.layoutLength inComment (CodeUnit.carriageReturn :: CodeUnit.lineFeed :: t)
        = Text.layoutLength false t + 1 + 1 := rfl
    rw [List.cons_append, List.nil_append, hreturn, List.length_singleton]
    omega

/-- What is passed over between tokens in brackets is laid out anew. -/
theorem drop_layoutLength_within (t : Text) (inComment : Bool) :
    (y.within t).drop (Text.layoutLength inComment (y.within t))
      = y.within (t.drop (t.layoutLength inComment)) := by
  induction t using Text.induction_lines generalizing inComment with
  | nil => rfl
  | unit u t hu ih =>
    rw [y.within_cons hu, Text.layoutLength, Text.layoutLength]
    split_ifs
    · exact ih false
    · exact ih true
    · exact ih false
    · exact ih true
    · exact (y.within_cons hu t).symm
  | lineFeed w m hm ih =>
    -- the line break and the indentation behind it are passed over in both texts
    have hlineFeed : ∀ s : Text, Text.layoutLength inComment (CodeUnit.lineFeed :: s)
        = Text.layoutLength false s + 1 := fun s => rfl
    have hbehind : ∀ s : Text,
        (y.returns ++ CodeUnit.lineFeed :: s).drop (y.returns.length + 1) = s :=
      fun s => by rw [← List.drop_drop, List.drop_left, List.drop_succ_cons, List.drop_zero]
    rw [within_lineFeed, layoutLength_returns, hlineFeed, y.anew_spaces w hm, layoutLength_spaces,
      layoutLength_spaces, List.drop_succ_cons, ← List.drop_drop, hbehind, ← List.drop_drop,
      ← List.drop_drop, Text.drop_spaces, Text.drop_spaces, ih false]

/-- What does not start with a space is laid out from inside a line on, wherever it stands. -/
theorem within_append_of_avoids (ht : t.Avoids (· == CodeUnit.space)) (s : Text) :
    y.within (s ++ t) = y.within s ++ y.within t := by
  induction s using Text.induction_lines with
  | nil => rfl
  | unit u s hu ih => rw [List.cons_append, y.within_cons hu, y.within_cons hu, ih, List.cons_append]
  | lineFeed w m hm ih =>
    have hmt : Text.Avoids (· == CodeUnit.space) (m ++ t) := by
      cases m with
      | nil => exact ht
      | cons v m => exact hm
    rw [List.cons_append, within_lineFeed, within_lineFeed, List.append_assoc,
      y.anew_spaces w hmt, y.anew_spaces w hm, ih, List.append_assoc, List.cons_append,
      List.append_assoc]

variable {y}

section Bodies

variable {quote : CodeUnit} (hquote : quote.isQuote = true)

include hquote

/-- Spaces and line ends are plain units of a string. -/
theorem isBody_cons_iff (hu : u = CodeUnit.lineFeed ∨ u = CodeUnit.carriageReturn ∨
    u = CodeUnit.space) : Text.IsBody quote (u :: t) ↔ Text.IsBody quote t := by
  have hplain : u ≠ quote ∧ u ≠ CodeUnit.backslash := by
    rw [CodeUnit.isQuote, Bool.or_eq_true, beq_iff_eq, beq_iff_eq] at hquote
    rcases hu with rfl | rfl | rfl <;> rcases hquote with rfl | rfl <;> decide
  refine ⟨fun h => ?_, fun h => .unit hplain.1 hplain.2 h⟩
  cases h with
  | unit _ _ ht => exact ht
  | escape => exact absurd rfl hplain.2

theorem isBody_spaces_iff (w : Nat) : Text.IsBody quote (Text.spaces w ++ t) ↔ t.IsBody quote := by
  induction w with
  | zero => exact Iff.rfl
  | succ w ih =>
    rw [Text.spaces, List.replicate_succ, List.cons_append, isBody_cons_iff hquote (.inr (.inr rfl))]
    exact ih

theorem isBody_returns (h : t.IsBody quote) :
    Text.IsBody quote (y.returns ++ CodeUnit.lineFeed :: t) := by
  have hfeed := (isBody_cons_iff hquote (.inl rfl)).mpr h
  rcases y.returns_eq with hreturns | hreturns <;> rw [hreturns]
  · exact hfeed
  · exact (isBody_cons_iff hquote (.inr (.inl rfl))).mpr hfeed

/-- What stands between quotes is laid out anew between the same quotes. -/
theorem isBody_within {body : Text} (h : body.IsBody quote) : (y.within body).IsBody quote := by
  -- an escape takes two units at once, so the induction is on the length
  induction hlength : body.length using Nat.strong_induction_on generalizing body with
  | _ length ih =>
    cases h with
    | nil => exact .nil
    | @unit u s hne hbackslash hs =>
      rw [List.length_cons] at hlength
      by_cases hu : u = CodeUnit.lineFeed
      · obtain ⟨m, hs', hm⟩ := Text.exists_indentation s
        generalize Text.indentation s = w at hs'
        have hbody : m.IsBody quote := (isBody_spaces_iff hquote w).mp (hs' ▸ hs)
        have hrest : (y.within m).IsBody quote := by
          refine ih m.length ?_ hbody rfl
          rw [hs', List.length_append] at hlength
          omega
        rw [hu, within_lineFeed, hs', y.anew_spaces w hm]
        exact isBody_returns hquote ((isBody_spaces_iff hquote _).mpr hrest)
      · rw [y.within_cons hu]
        exact .unit hne hbackslash (ih s.length (by omega) hs rfl)
    | @escape u s hu hs =>
      rw [List.length_cons, List.length_cons] at hlength
      have hne : u ≠ CodeUnit.lineFeed := by
        rintro rfl
        rw [CodeUnit.isQuote, Bool.or_eq_true, beq_iff_eq, beq_iff_eq] at hquote
        rcases hquote with rfl | rfl <;> exact absurd hu (by decide)
      rw [y.within_cons (by decide), y.within_cons hne]
      exact .escape hu (ih s.length (by omega) hs rfl)

end Bodies

/-! ### Cursors -/

/-- The cursors stand for each other in a text and its new layout, inside a line. -/
structure Inside (y : Layout) (source source' : Text) (c c' : Cursor) : Prop where
  ahead_eq : c'.ahead = y.within c.ahead
  fits : y.Fits c.ahead
  stands : c.StandsIn source
  stands' : c'.StandsIn source'

/-- The cursors stand for each other where a line starts or has ended. -/
structure Between (y : Layout) (source source' : Text) (c c' : Cursor) : Prop where
  ahead_eq : c'.ahead = y.anew c.ahead
  fits : y.Fits c.ahead
  stands : c.StandsIn source
  stands' : c'.StandsIn source'

section Cursors

variable {source source' : Text} {c c' : Cursor}

/-- Both cursors pass over something, and what is ahead of them goes together again. -/
theorem Inside.advanceBy (h : y.Inside source source' c c') {k k' : Nat}
    (hahead : c'.ahead.drop k' = y.within (c.ahead.drop k)) :
    y.Inside source source' (c.advanceBy k) (c'.advanceBy k') where
  ahead_eq := by rw [Cursor.ahead_advanceBy, Cursor.ahead_advanceBy, hahead]
  fits := by
    rw [Cursor.ahead_advanceBy]
    exact h.fits.drop k
  stands := h.stands.advanceBy k
  stands' := h.stands'.advanceBy k'

/-- Units of the line are passed in both texts. -/
theorem Inside.pass (h : y.Inside source source' c c') {s rest : Text} (hc : c.ahead = s ++ rest)
    (hs : ∀ u ∈ s, u ≠ CodeUnit.lineFeed) :
    y.Inside source source' (c.advanceBy s.length) (c'.advanceBy s.length) := by
  refine h.advanceBy ?_
  rw [h.ahead_eq, hc, y.within_append hs, List.drop_left, List.drop_left]

theorem Inside.plain (h : y.Inside source source' c c') {k : Nat} (hk : c.ahead.StartsPlain k) :
    y.Inside source source' (c.advanceBy k) (c'.advanceBy k) := by
  obtain ⟨s, rest, hahead, rfl, hs⟩ := hk
  exact h.pass hahead fun u hu =>
    Text.ne_lineFeed_of_isLineEnd (CodeUnit.isLineEnd_of_isPlain (hs u hu))

theorem Inside.sameLine (h : y.Inside source source' c c') : c.ahead.SameLine c'.ahead := by
  rw [h.ahead_eq]
  exact y.sameLine_within c.ahead

/-- At the end of a line there is no indentation to change. -/
theorem Inside.between (h : y.Inside source source' c c') (hend : c.ahead.atLineEnd = true) :
    y.Between source source' c c' where
  ahead_eq := by
    have havoids : c.ahead.Avoids (· == CodeUnit.space) :=
      (Text.avoids_isSpace_of_atLineEnd hend).imp fun u hu => by rw [CodeUnit.isSpace, hu, Bool.true_or]
    have hanew := y.anew_spaces 0 havoids
    rw [y.width_zero] at hanew
    exact h.ahead_eq.trans hanew.symm
  fits := h.fits
  stands := h.stands
  stands' := h.stands'

theorem anew_ne_nil {t : Text} (h : t ≠ []) : y.anew t ≠ [] := by
  obtain ⟨m, ht, hm⟩ := t.exists_indentation
  generalize t.indentation = w at ht
  rw [ht, y.anew_spaces w hm]
  rcases Nat.eq_zero_or_pos w with rfl | hw
  · intro hnil
    rw [y.width_zero] at hnil
    have hcases := y.head?_within_cases m
    rw [show y.within m = [] from hnil] at hcases
    rcases hcases with hhead | ⟨_, _, -, hhead, -⟩
    · exact h (ht.trans (List.head?_eq_none_iff.mp hhead.symm))
    · cases hhead
  · obtain ⟨v, hv⟩ := Nat.exists_eq_succ_of_ne_zero (Nat.ne_of_gt (width_pos (y := y) hw))
    rw [hv]
    exact List.cons_ne_nil _ _

/-- The gap on the line is the same in both texts. -/
theorem Inside.spaces (h : y.Inside source source' c c') :
    y.Inside source source' (c.advanceBy c.ahead.gapLength) (c'.advanceBy c'.ahead.gapLength) := by
  have hgap : c'.ahead.gapLength = c.ahead.gapLength := by
    rw [Text.gapLength, Text.gapLength, h.sameLine.takeWhile (by decide)]
  have hspaces : ∀ u ∈ c.ahead.takeWhile CodeUnit.isSpace, u ≠ CodeUnit.lineFeed := by
    rintro u hu rfl
    exact absurd (Text.takeWhile_pos _ hu) (by decide)
  rw [hgap]
  exact h.pass List.takeWhile_append_dropWhile.symm hspaces

/-- The lines of both texts go together, until both of them end. -/
theorem Between.opens (h : y.Between source source' c c') (reports : Reports) (fresh : Prop) :
    c.Opens reports y.width (y.Inside source source') (y.Between source source') (fun _ => False)
      fresh c' := by
  by_cases hnil : c.ahead = []
  · exact .ended hnil (by rw [h.ahead_eq, hnil, anew_nil])
  · -- the width of the line, then the cursors at its code and behind the line
    refine .line hnil (by rw [h.ahead_eq]; exact anew_ne_nil hnil) ?_ ⟨?_, ?_, ?_, ?_⟩
      (fun _ => ⟨?_, ?_, ?_, ?_⟩) ?_
    · rw [h.ahead_eq, indentation_anew]
    · rw [Cursor.ahead_advanceBy, Cursor.ahead_advanceBy, h.ahead_eq, drop_indentation_anew]
    · exact Cursor.ahead_advanceBy _ c ▸ h.fits.drop _
    · exact h.stands.advanceBy _
    · exact h.stands'.advanceBy _
    · rw [Cursor.ahead_advanceBy, Cursor.ahead_advanceBy, h.ahead_eq, drop_lineLength_anew]
    · exact Cursor.ahead_advanceBy _ c ▸ h.fits.drop _
    · exact h.stands.advanceBy _
    · exact h.stands'.advanceBy _
    · rw [h.ahead_eq]
      exact lineBreakLength_anew h.fits

theorem Between.isEmpty_ahead (h : y.Between source source' c c') :
    c'.ahead.isEmpty = c.ahead.isEmpty := by
  rw [h.ahead_eq]
  by_cases hnil : c.ahead = []
  · rw [hnil, anew_nil]
  · rw [List.isEmpty_eq_false_iff.mpr hnil, List.isEmpty_eq_false_iff.mpr (anew_ne_nil hnil)]

end Cursors

/-! ### Strings -/

/-- How what is reported of a text goes with what is reported of its new layout. -/
structure Account (y : Layout) (source source' : Text) where
  reports : Reports
  /-- What is kept of a place of the text. -/
  view : Location → Location
  /-- What is kept of a place of the new layout. -/
  view' : Location → Location
  view_eq {l l' : Location} (h : reports.place l l') : view' l' = view l
  complaint_eq {k k' : Complaint} (hcode : k'.code = k.code) (harguments : k'.arguments = k.arguments)
    (hhint : k'.hint = k.hint) : reports.complaint k k'
  complaint_indentation {relation : Text} {level distance distance' : Nat} {t t' : Text}
    (hwidth : t'.indentation = y.width t.indentation)
    (hcode : Text.SameStart (t.drop t.indentation) (t'.drop t'.indentation)) :
    reports.complaint (.indentation relation level t distance)
      (.indentation relation (y.width level) t' distance')
  place_inside {c c' : Cursor} (h : y.Inside source source' c c') :
    reports.place c.location c'.location
  place_between {c c' : Cursor} (h : y.Between source source' c c') :
    reports.place c.location c'.location

section Strings

variable {source source' : Text} (a : y.Account source source') {c c' : Cursor}

/-- A unit that cannot be escaped is shown alike in both texts. -/
theorem exists_within_badEscape {quote u : CodeUnit} (hquote : quote.isQuote = true)
    (hu : Text.escapable quote u = false) (rest : Text) :
    ∃ v rest', y.within (CodeUnit.backslash :: u :: rest) = CodeUnit.backslash :: v :: rest' ∧
      Text.escapable quote v = false ∧
        ∀ k k', (Reader.invalidEscape k' v).arguments = (Reader.invalidEscape k u).arguments := by
  -- no line end can be escaped, so a return in front of the feed spoils the escape alike
  have hends : ∀ v : CodeUnit, v = CodeUnit.lineFeed ∨ v = CodeUnit.carriageReturn →
      Text.escapable quote v = false := by
    rw [CodeUnit.isQuote, Bool.or_eq_true, beq_iff_eq, beq_iff_eq] at hquote
    rintro v (rfl | rfl) <;> rcases hquote with rfl | rfl <;> rfl
  rw [y.within_cons (by decide)]
  by_cases hline : u = CodeUnit.lineFeed
  · rw [hline, within_lineFeed]
    rcases y.returns_eq with h | h <;> rw [h]
    · exact ⟨_, _, rfl, hends _ (.inl rfl), fun _ _ => rfl⟩
    · exact ⟨_, _, rfl, hends _ (.inr rfl), fun _ _ => rfl⟩
  · rw [y.within_cons hline]
    exact ⟨u, _, rfl, hu, fun _ _ => rfl⟩

/-- A string is read in both texts, or the same is wrong with it. -/
theorem pairs_string (h : y.Inside source source' c c') :
    Reading.Pairs a.reports (fun v v' d d' =>
        v' = v.map (fun literal => ⟨y.within literal.body, literal.quote⟩) ∧
          y.Inside source source' d d')
      c c' (Reader.string c.ahead) (Reader.string c'.ahead) := by
  have hplace := a.place_inside h
  -- no string is ahead, or a quote with a body and what the body cannot go on with
  by_cases hnone : c.ahead.Avoids CodeUnit.isQuote
  · have hnone' : c'.ahead.Avoids CodeUnit.isQuote :=
      ((h.sameLine).any_head? (by decide)).trans hnone
    rw [Reader.string_eq_none hnone, Reader.string_eq_none hnone']
    exact .took ⟨rfl, h⟩
  · obtain ⟨quote, body, rest, hc, hbody, hstop⟩ := Reader.exists_string hnone
    have hisQuote : quote.unit.isQuote = true := by cases quote <;> decide
    have hline : quote.unit ≠ CodeUnit.lineFeed := by cases quote <;> decide
    have hbody' : (y.within body).IsBody quote.unit := isBody_within hisQuote hbody
    have havoids : rest.Avoids (· == CodeUnit.space) := by
      cases hstop with
      | closed => cases quote <;> rfl
      | _ => rfl
    have hc' : c'.ahead = quote.unit :: (y.within body ++ y.within rest) := by
      rw [h.ahead_eq, hc, y.within_cons hline, y.within_append_of_avoids havoids]
    cases hstop with
    | ended =>
      rw [y.within_nil] at hc'
      rw [hc, hc', Reader.string_unterminated hbody (.inl rfl),
        Reader.string_unterminated hbody' (.inl rfl)]
      exact .fault (a.complaint_eq rfl rfl rfl) hplace
    | backslash =>
      have hstays : y.within [CodeUnit.backslash] = [CodeUnit.backslash] :=
        y.within_eq_self (by decide)
      rw [hstays] at hc'
      rw [hc, hc', Reader.string_unterminated hbody (.inr rfl),
        Reader.string_unterminated hbody' (.inr rfl)]
      exact .fault (a.complaint_eq rfl rfl rfl) hplace
    | closed rest =>
      have hdrop : ∀ s t : Text, List.drop (s.length + 2) (quote.unit :: (s ++ quote.unit :: t)) = t :=
        fun s t => by rw [List.drop_succ_cons, ← List.drop_drop, List.drop_left, List.drop_succ_cons,
          List.drop_zero]
      rw [y.within_cons hline] at hc'
      have hbehind : y.Inside source source' (c.advanceBy (body.length + 2))
          (c'.advanceBy ((y.within body).length + 2)) :=
        h.advanceBy (by rw [hc, hc', hdrop, hdrop])
      rw [hc, hc', Reader.string_closed hbody, Reader.string_closed hbody']
      exact .took ⟨rfl, hbehind⟩
    | @badEscape u hu rest =>
      have hdrop : ∀ s t : Text, List.drop (s.length + 1) (quote.unit :: (s ++ t)) = t :=
        fun s t => by rw [List.drop_succ_cons, List.drop_left]
      have hbehind : y.Inside source source' (c.advanceBy (body.length + 1))
          (c'.advanceBy ((y.within body).length + 1)) :=
        h.advanceBy (by rw [hc, hc', hdrop, hdrop])
      obtain ⟨v, rest', hwithin, hv, harguments⟩ := exists_within_badEscape (y := y) hisQuote hu rest
      rw [hwithin] at hc'
      rw [hc, hc', Reader.string_badEscape hbody hu, Reader.string_badEscape hbody' hv]
      exact .fault (a.complaint_eq rfl (harguments _ _) rfl) (a.place_inside hbehind)

end Strings

/-! ### The pairing -/

/-- A text and its new layout, side by side. -/
def pairing {source source' : Text} (y : Layout) (a : y.Account source source') : Pairing where
  reports := a.reports
  quoted := y.within
  width := y.width
  view := a.view
  view' := a.view'
  inside _ := y.Inside source source'
  between := y.Between source source'
  gone _ := False
  fresh := True
  view_eq := a.view_eq
  complaint_eq := a.complaint_eq
  unexpected {what bs c c'} h := by
    have hsame := y.unexpected_within what c.ahead
    rw [← h.ahead_eq] at hsame
    rw [hsame]
    exact a.complaint_eq rfl rfl rfl
  complaint_indentation := a.complaint_indentation
  width_zero := y.width_zero
  width_lt := y.width_lt
  quoted_nil := rfl
  quoted_cons hu := y.within_cons (Text.ne_lineFeed_of_isLineEnd hu) _
  quoted_concat {u t} hu := by
    have hline : u ≠ CodeUnit.lineFeed := by
      rintro rfl
      exact absurd hu (by decide)
    have havoids : Text.Avoids (· == CodeUnit.space) [u] := by
      rw [Text.avoids_cons, beq_eq_false_iff_ne]
      rintro rfl
      exact absurd hu (by decide)
    rw [y.within_append_of_avoids havoids, y.within_cons hline, within_nil]
  place_inside := a.place_inside
  place_between := a.place_between
  sameStart h := .line h.sameLine
  sameToken h := h.sameLine.sameToken
  plain h hk := h.plain hk
  spaces h := h.spaces
  -- what the grammar looks at behind spaces is on the same line in both texts
  endsItem h := by
    have hbehind := h.spaces.sameLine
    rw [Cursor.ahead_advanceBy, Cursor.ahead_advanceBy] at hbehind
    exact Text.SameStart.endsItem (.line hbehind)
  isDefault h _ := by
    have hbehind := h.spaces.sameLine.sameToken
    rw [Cursor.ahead_advanceBy, Cursor.ahead_advanceBy] at hbehind
    exact hbehind.startsInitializer
  default h _ hdefault := Cursor.default_of_spaces Inside.spaces (fun h hk => h.plain hk) h hdefault
  opener {bs u c c'} h hu hopener := by
    obtain ⟨rest, hahead⟩ := List.head?_eq_some_iff.mp hu
    refine h.pass (s := [u]) hahead fun v hv => ?_
    rw [List.mem_singleton.mp hv]
    exact Text.ne_lineFeed_of_isLineEnd (CodeUnit.isLineEnd_of_isOpener hopener)
  closer {bs u v c c'} h hu hcloser := by
    obtain ⟨rest, hahead⟩ := List.head?_eq_some_iff.mp hu
    refine h.pass (s := [u]) hahead fun v hv => ?_
    rw [List.mem_singleton.mp hv]
    exact Text.ne_lineFeed_of_isLineEnd (CodeUnit.isLineEnd_of_isCloser hcloser)
  layout h := h.advanceBy (by rw [h.ahead_eq, y.drop_layoutLength_within])
  string h := pairs_string a h
  comment {c c' found} h hfound := by
    obtain ⟨body, rest, hahead, rfl, hbody, -⟩ := Text.exists_of_comment? hfound
    exact h.pass (s := CodeUnit.hash :: body) hahead (List.forall_mem_cons.mpr
      ⟨by decide, fun u hu => Text.ne_lineFeed_of_isLineEnd (hbody u hu)⟩)
  between_of_inside h hend := h.between hend
  opens h := h.opens a.reports True
  gone_advanceBy h _ := h

/-- Both texts end where one of them does. -/
theorem endTogether_pairing {source source' : Text} (a : y.Account source source') :
    (y.pairing a).EndTogether where
  ended h hnil := by rw [h.ahead_eq, hnil, anew_nil]
  not_gone _ h := h
  fresh := trivial

/-- A text is read from its start on, and so is its new layout. -/
theorem between_ofText {source : Text} (hfits : y.Fits source) :
    y.Between source (y.anew source) (Cursor.ofText source) (Cursor.ofText (y.anew source)) where
  ahead_eq := rfl
  fits := hfits
  stands := Cursor.standsIn_ofText source
  stands' := Cursor.standsIn_ofText (y.anew source)

end Layout

end GDScript
