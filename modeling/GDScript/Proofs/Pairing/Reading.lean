import GDScript.Proofs.Pairing.Declaration
import GDScript.Proofs.Staying

/-!
# Two texts side by side

A `Pairing` says how the lines of two texts go together that are read side by side: besides their
tokens, which cursors stand for each other where a line starts or has ended, how wide the lines of one
text are indented in the other one, and what may follow where only the first text ends. What follows
from its laws is how a comment, a line break, an indentation and the lines that a block passes over
are read in both texts.
-/

namespace GDScript

open Grammar

/-! ### Where only one text goes on -/

/--
What may be the next line of code behind a text: none, or one that is not indented and, when it has to
be `fresh`, does not go on with an `if`.
-/
def Text.IsForeign (fresh : Prop) (t : Text) : Prop :=
  t = [] ∨ t.indentation = 0 ∧
    (fresh → Text.startsWord "elif" t = false ∧ Text.startsWord "else" t = false)

/-- A line has ended, and what comes next may stand behind a text. -/
structure Cursor.IsQuiet (fresh : Prop) (c : Cursor) : Prop where
  atLineEnd : c.ahead.atLineEnd = true
  isForeign : c.ahead.nextCode.IsForeign fresh

/--
What stands at two cursors where a line starts or has ended: both texts are at their ends; or only the
first one is, and what is left of the other one may stand behind a text; or there are lines in both of
them.
-/
inductive Cursor.Opens (reports : Reports) (width : Nat → Nat)
    (inside between : Cursor → Cursor → Prop) (gone : Cursor → Prop) (fresh : Prop)
    (c c' : Cursor) : Prop where
  | ended (h : c.ahead = []) (h' : c'.ahead = [])
  | beyond (hloose : reports = .loose reports.place) (h : c.ahead = []) (h' : c'.ahead ≠ [])
      (hforeign : c'.ahead.nextCode.IsForeign fresh)
      (hnext : c'.ahead.isEmptyLine = true → between c (c'.advanceBy c'.ahead.lineLength))
      (hgone : c'.ahead.isEmptyLine = true → ∀ k, 0 < k → gone (c'.advanceBy k))
  | line (h : c.ahead ≠ []) (h' : c'.ahead ≠ [])
      (hwidth : c'.ahead.indentation = width c.ahead.indentation)
      (hcode : inside (c.advanceBy c.ahead.indentation) (c'.advanceBy c'.ahead.indentation))
      (hnext : c.ahead.isEmptyLine = true →
        between (c.advanceBy c.ahead.lineLength) (c'.advanceBy c'.ahead.lineLength))
      (hbreak : c.ahead.lineBreakLength = 0 ↔ c'.ahead.lineBreakLength = 0)

/-- Two texts that are read side by side. -/
structure Pairing extends TokenPairing where
  /-- How wide the lines of an indentation are indented in the other text. -/
  width : Nat → Nat
  /-- The cursors stand for each other where a line starts or has ended. -/
  between : Cursor → Cursor → Prop
  /-- The cursor is further on in the other text than where the first one ends. -/
  gone : Cursor → Prop
  /-- The other text does not go on with an `if` where the first one ends. -/
  fresh : Prop
  /-- Complaints about two lines that go together go together. -/
  complaint_indentation {relation : Text} {level distance distance' : Nat} {t t' : Text}
    (hwidth : t'.indentation = width t.indentation)
    (hcode : Text.SameStart (t.drop t.indentation) (t'.drop t'.indentation)) :
    reports.complaint (.indentation relation level t distance)
      (.indentation relation (width level) t' distance')
  width_zero : width 0 = 0
  width_lt {m n : Nat} (h : m < n) : width m < width n
  place_between {c c' : Cursor} (h : between c c') : reports.place c.location c'.location
  sameStart {c c' : Cursor} (h : inside [] c c') : c.ahead.SameStart c'.ahead
  comment {c c' : Cursor} {found : Text} (h : inside [] c c') (hfound : c.ahead.comment? = some found) :
    inside [] (c.advanceBy found.length) (c'.advanceBy found.length)
  between_of_inside {c c' : Cursor} (h : inside [] c c') (hend : c.ahead.atLineEnd = true) :
    between c c'
  opens {c c' : Cursor} (h : between c c') : c.Opens reports width (inside []) between gone fresh c'
  gone_advanceBy {c' : Cursor} (h : gone c') (k : Nat) : gone (c'.advanceBy k)

namespace Pairing

/-! ### Lines that are indented alike in both texts -/

theorem id_zero : id 0 = 0 := rfl

theorem id_lt_id {m n : Nat} (h : m < n) : id m < id n := h

end Pairing

/-! ### The starts of lines -/

namespace Text

variable {t t' : Text}

theorem dropWhile_isSpace_drop_indentation (t : Text) :
    (t.drop t.indentation).dropWhile CodeUnit.isSpace = t.dropWhile CodeUnit.isSpace := by
  rw [indentation, drop_length_takeWhile]
  induction t with
  | nil => rfl
  | cons u t ih =>
    rw [List.dropWhile_cons]
    split
    · next hu =>
      have hspace : u.isSpace = true := by rw [CodeUnit.isSpace, hu, Bool.true_or]
      rw [ih, List.dropWhile_cons, if_pos hspace]
    · rfl

/-- What is indented starts with a space. -/
theorem head?_of_indentation_pos (h : 0 < t.indentation) : t.head? = some CodeUnit.space := by
  cases t with
  | nil => exact absurd h (Nat.lt_irrefl 0)
  | cons u t =>
    by_cases hu : u = CodeUnit.space
    · rw [hu, List.head?_cons]
    · exact absurd h (by simp [indentation, hu])

/-- Something is left behind the indentation of a line of code. -/
theorem drop_indentation_ne_nil (h : t.isEmptyLine = false) : t.drop t.indentation ≠ [] := by
  intro hnil
  have hdrop := dropWhile_isSpace_drop_indentation t
  rw [hnil, List.dropWhile_nil] at hdrop
  have hblank : t.isBlankLine = true := by
    rw [isBlankLine, ← hdrop]
    rfl
  rw [isEmptyLine, hblank, Bool.true_or] at h
  exact Bool.noConfusion h

theorem isBlankLine_eq (h : SameStart (t.drop t.indentation) (t'.drop t'.indentation)) :
    t'.isBlankLine = t.isBlankLine := by
  rw [isBlankLine, isBlankLine, ← dropWhile_isSpace_drop_indentation t,
    ← dropWhile_isSpace_drop_indentation t', h.dropWhile_isSpace.atLineEnd]

theorem isCommentLine_eq (h : SameStart (t.drop t.indentation) (t'.drop t'.indentation)) :
    t'.isCommentLine = t.isCommentLine := by
  have hhead : ∀ s : Text, (s.head? == some CodeUnit.hash) = s.head?.any (· == CodeUnit.hash) := by
    intro s
    cases s <;> rfl
  rw [isCommentLine, isCommentLine, ← dropWhile_isSpace_drop_indentation t,
    ← dropWhile_isSpace_drop_indentation t', hhead, hhead,
    h.dropWhile_isSpace.any_head? (by decide)]

theorem isEmptyLine_eq (h : SameStart (t.drop t.indentation) (t'.drop t'.indentation)) :
    t'.isEmptyLine = t.isEmptyLine := by
  rw [isEmptyLine, isEmptyLine, isBlankLine_eq h, isCommentLine_eq h]

/-- The first line, with its line feed, and what stands behind it. -/
theorem exists_line (t : Text) : ∃ l rest : Text, (∀ u ∈ l, u ≠ CodeUnit.lineFeed) ∧
    t.lineLength = l.length + 1 ∧
      ((t = l ∧ rest = []) ∨ t = l ++ CodeUnit.lineFeed :: rest) := by
  have hl : ∀ u ∈ t.takeWhile (· != CodeUnit.lineFeed), u ≠ CodeUnit.lineFeed := fun u hu => by
    simpa using takeWhile_pos u hu
  have hsplit := List.takeWhile_append_dropWhile (p := (· != CodeUnit.lineFeed)) (l := t)
  -- the text may end without a line feed
  cases hrest : t.dropWhile (· != CodeUnit.lineFeed) with
  | nil =>
    rw [hrest, List.append_nil] at hsplit
    exact ⟨_, [], hl, rfl, .inl ⟨hsplit.symm, rfl⟩⟩
  | cons u rest =>
    have hu : (u != CodeUnit.lineFeed) = false := by
      have havoids := avoids_dropWhile (· != CodeUnit.lineFeed) t
      rw [hrest] at havoids
      exact havoids
    obtain rfl : u = CodeUnit.lineFeed := by simpa using hu
    rw [hrest] at hsplit
    exact ⟨_, rest, hl, rfl, .inr hsplit.symm⟩

theorem drop_lineLength_append {l : Text} (hl : ∀ u ∈ l, u ≠ CodeUnit.lineFeed) (rest : Text) :
    (l ++ CodeUnit.lineFeed :: rest).drop (lineLength (l ++ CodeUnit.lineFeed :: rest)) = rest := by
  have hline : ∀ u ∈ l, (u != CodeUnit.lineFeed) = true := fun u hu => by simpa using hl u hu
  rw [lineLength, takeWhile_append hline (avoids_cons.mpr rfl), ← List.singleton_append,
    ← List.append_assoc, List.drop_left' (by simp)]

theorem drop_lineLength_last {l : Text} (hl : ∀ u ∈ l, u ≠ CodeUnit.lineFeed) :
    l.drop l.lineLength = [] := by
  have hline : ∀ u ∈ l, (u != CodeUnit.lineFeed) = true := fun u hu => by simpa using hl u hu
  have htake := takeWhile_append hline (avoids_nil _)
  rw [List.append_nil] at htake
  rw [lineLength, htake, List.drop_eq_nil_of_le (Nat.le_succ _)]

/-- A line break at the start of a text is the end of its first line. -/
theorem lineLength_eq {t : Text} (h : t.lineBreakLength ≠ 0) : t.lineLength = t.lineBreakLength := by
  obtain ⟨l, rest, hl, rfl, hlength⟩ := t.lineBreakLength_cases.resolve_left h
  rw [hlength, lineLength]
  rcases hl with rfl | rfl <;> rfl

end Text

namespace Cursor

variable {c : Cursor} {droppable : Text → Bool}

/-- An advance beyond the end of the text leads to the end. -/
theorem advanceBy_of_length_le {k : Nat} (h : c.ahead.length ≤ k) :
    c.advanceBy k = c.advanceBy c.ahead.length := by
  have hend : (c.advanceBy c.ahead.length).ahead = [] := by rw [ahead_advanceBy, List.drop_length]
  rw [← Nat.add_sub_of_le h, ← advanceBy_advanceBy, advanceBy_of_ahead_eq_nil hend]

/-- Where the same is left of a text, the cursors are the same. -/
theorem advanceBy_eq_of_drop_eq {j k : Nat} (h : c.ahead.drop j = c.ahead.drop k) :
    c.advanceBy j = c.advanceBy k := by
  have hlength := congrArg List.length h
  rw [List.length_drop, List.length_drop] at hlength
  by_cases hj : j < c.ahead.length
  · rw [show j = k by omega]
  · have hk : c.ahead.length ≤ k := by omega
    rw [advanceBy_of_length_le (Nat.le_of_not_lt hj), ← advanceBy_of_length_le hk]

/-- A line that is dropped is passed as a whole, and then further lines are. -/
theorem advanceBy_droppedLength (hdrop : droppable c.ahead = true) :
    c.advanceBy (c.ahead.droppedLength droppable false)
      = (c.advanceBy c.ahead.lineLength).advanceBy
          ((c.advanceBy c.ahead.lineLength).ahead.droppedLength droppable false) := by
  obtain ⟨l, rest, hl, hlength, ⟨ht, -⟩ | ht⟩ := c.ahead.exists_line
  · -- the last line: both advances lead to the end of the text
    have hend : (c.advanceBy c.ahead.lineLength).ahead = [] := by
      rw [ahead_advanceBy, hlength, ht, List.drop_eq_nil_of_le (Nat.le_succ _)]
    rw [advanceBy_of_ahead_eq_nil hend, Text.droppedLength_of_droppable hdrop, hlength, ht,
      Text.droppedLength_lastLine hl, ← ht]
    exact (advanceBy_of_length_le (Nat.le_succ _)).symm
  · have hrest : (c.advanceBy c.ahead.lineLength).ahead = rest := by
      rw [ahead_advanceBy, hlength, ht, ← List.singleton_append, ← List.append_assoc,
        List.drop_left' (by simp)]
    rw [hrest, advanceBy_advanceBy, Text.droppedLength_of_droppable hdrop, hlength, ht,
      Text.droppedLength_line hl]

/-- Nothing is dropped from a line that is kept. -/
theorem droppedLength_eq_zero {t : Text} (h : t = [] ∨ droppable t = false) :
    t.droppedLength droppable false = 0 := by
  cases t with
  | nil => rfl
  | cons u t =>
    rw [Text.droppedLength, Bool.false_or, h.resolve_left (List.cons_ne_nil u t)]
    rfl

theorem advanceBy_codeDistance (c : Cursor) :
    c.advanceBy c.ahead.codeDistance = c.advanceBy c.ahead.emptyLinesLength :=
  advanceBy_eq_of_drop_eq (Text.drop_codeDistance c.ahead)

end Cursor

namespace Pairing

variable (p : Pairing) {room n m : Nat} {c c' : Cursor} {α : Type}

/-! ### The end of a line -/

theorem carries_comment :
    Carries p.reports room m (p.inside []) (read Reader.comment : Grammar Rule (Option Text))
      (read Reader.comment) Eq (p.inside []) := by
  intro c c' hc
  refine pairs_read ?_
  rw [Reader.comment, Reader.comment, (p.sameStart hc).comment?]
  cases hfound : c.ahead.comment? with
  | none => exact .took ⟨rfl, hc⟩
  | some found => exact .took ⟨rfl, p.comment hc hfound⟩

/-- Behind a line break, or where there is none, a line has ended in both texts. -/
theorem carries_lineBreak :
    Carries p.reports room m (fun c c' => p.inside [] c c' ∧ c.ahead.atLineEnd = true)
      (read Reader.lineBreak : Grammar Rule Bool) (read Reader.lineBreak) (fun _ _ => True)
      p.between := by
  rintro c c' ⟨hc, hend⟩
  have hbetween := p.between_of_inside hc hend
  have hend' : c'.ahead.atLineEnd = true := by rw [(p.sameStart hc).atLineEnd, hend]
  refine pairs_read (.took ⟨trivial, ?_⟩)
  cases p.opens hbetween with
  | ended h h' =>
    rw [h, h']
    exact hbetween
  | beyond _ h _ _ hnext =>
    -- only the second text goes on, and the line break belongs to what stands behind the first one
    rw [h]
    by_cases hnone' : c'.ahead.lineBreakLength = 0
    · rw [hnone']
      exact hbetween
    · have hbehind := hnext (Text.isEmptyLine_of_atLineEnd hend')
      rw [Text.lineLength_eq hnone'] at hbehind
      exact hbehind
  | line _ _ _ _ hnext hbreak =>
    by_cases hnone : c.ahead.lineBreakLength = 0
    · rw [hnone, hbreak.mp hnone]
      exact hbetween
    · have hnone' : c'.ahead.lineBreakLength ≠ 0 := fun h => hnone (hbreak.mpr h)
      have hbehind := hnext (Text.isEmptyLine_of_atLineEnd hend)
      rw [Text.lineLength_eq hnone, Text.lineLength_eq hnone'] at hbehind
      exact hbehind

/-! ### Lines that are passed over -/

/--
Lines are dropped from both texts together, if a line that is dropped from one of them is dropped from
the other one, and only empty lines are.
-/
theorem between_dropped {droppable droppable' : Text → Bool}
    (hempty : ∀ t, droppable' t = true → t.isEmptyLine = true)
    (hsame : ∀ t t' : Text, t'.indentation = p.width t.indentation →
      Text.SameStart (t.drop t.indentation) (t'.drop t'.indentation) →
        droppable' t' = droppable t) (hc : p.between c c') :
    p.between (c.advanceBy (c.ahead.droppedLength droppable false))
      (c'.advanceBy (c'.ahead.droppedLength droppable' false)) := by
  -- on both texts together, since a line beyond the item is dropped in the second one alone
  induction hlength : c.ahead.length + c'.ahead.length using Nat.strong_induction_on
    generalizing c c' with
  | _ length ih =>
    have hshorter : ∀ d : Cursor, d.ahead ≠ [] →
        (d.advanceBy d.ahead.lineLength).ahead.length < d.ahead.length := by
      intro d hd
      have hpos := List.length_pos_iff.mpr hd
      rw [Cursor.ahead_advanceBy, List.length_drop, Text.lineLength]
      omega
    cases p.opens hc with
    | ended h h' =>
      rw [Cursor.droppedLength_eq_zero (.inl h), Cursor.droppedLength_eq_zero (.inl h')]
      exact hc
    | beyond _ h h' _ hnext =>
      cases hdropped : droppable' c'.ahead with
      | false =>
        rw [Cursor.droppedLength_eq_zero (.inl h), Cursor.droppedLength_eq_zero (.inr hdropped)]
        exact hc
      | true =>
        rw [Cursor.advanceBy_droppedLength hdropped]
        have hlt := hshorter c' h'
        exact ih _ (by omega) (hnext (hempty _ hdropped)) rfl
    | line h h' hwidth hcode hnext _ =>
      have hline := p.sameStart hcode
      rw [Cursor.ahead_advanceBy, Cursor.ahead_advanceBy] at hline
      have hdrop := hsame _ _ hwidth hline
      -- the line is dropped on both sides or on neither
      cases hdropped : droppable c.ahead with
      | false =>
        rw [hdropped] at hdrop
        rw [Cursor.droppedLength_eq_zero (.inr hdropped), Cursor.droppedLength_eq_zero (.inr hdrop)]
        exact hc
      | true =>
        rw [hdropped] at hdrop
        have hbehind := hnext ((Text.isEmptyLine_eq hline).symm.trans (hempty _ hdrop))
        rw [Cursor.advanceBy_droppedLength hdropped, Cursor.advanceBy_droppedLength hdrop]
        have hlt := hshorter c h
        have hlt' := hshorter c' h'
        exact ih _ (by omega) hbehind rfl

/-- Empty lines are dropped from both texts together. -/
theorem between_emptyLines (hc : p.between c c') :
    p.between (c.advanceBy c.ahead.emptyLinesLength) (c'.advanceBy c'.ahead.emptyLinesLength) :=
  p.between_dropped (fun _ h => h) (fun _ _ _ hline => Text.isEmptyLine_eq hline) hc

/-- Empty lines are skipped in both texts. -/
theorem carries_skipEmptyLines :
    Carries p.reports room m p.between (read Reader.skipEmptyLines : Grammar Rule Unit)
      (read Reader.skipEmptyLines) (fun _ _ => True) p.between := by
  intro c c' hc
  have hbehind := p.between_emptyLines hc
  rw [← Cursor.advanceBy_codeDistance, ← Cursor.advanceBy_codeDistance] at hbehind
  exact pairs_read (.took ⟨trivial, hbehind⟩)

theorem width_pos {w : Nat} (hw : 0 < w) : 0 < p.width w :=
  Nat.lt_of_le_of_lt (Nat.zero_le _) (p.width_lt hw)

theorem width_inj {a b : Nat} (h : p.width a = p.width b) : a = b := by
  rcases Nat.lt_trichotomy a b with hlt | heq | hlt
  · exact absurd h (Nat.ne_of_lt (p.width_lt hlt))
  · exact heq
  · exact absurd h.symm (Nat.ne_of_lt (p.width_lt hlt))

theorem width_lt_iff {a b : Nat} : p.width a < p.width b ↔ a < b := by
  refine ⟨fun h => ?_, p.width_lt⟩
  by_contra hnot
  rcases Nat.eq_or_lt_of_le (Nat.le_of_not_lt hnot) with heq | hlt
  · rw [heq] at h
    exact Nat.lt_irrefl _ h
  · exact Nat.lt_asymm h (p.width_lt hlt)

/-- A block passes over the same lines in both texts. -/
theorem between_passOver (level : Nat) (hc : p.between c c') :
    p.between (Script.passOver level c) (Script.passOver (p.width level) c') := by
  refine p.between_dropped (fun _ => Script.isEmptyLine_of_isPassedOver) ?_ hc
  intro t t' hwidth hline
  have hlevel : (t'.indentation != p.width level) = (t.indentation != level) := by
    rw [hwidth, Bool.eq_iff_iff, bne_iff_ne, bne_iff_ne, not_iff_not]
    exact ⟨p.width_inj, congrArg p.width⟩
  rw [Script.isPassedOver, Script.isPassedOver, Text.isBlankLine_eq hline,
    Text.isCommentLine_eq hline, hlevel]

/-! ### Indentation -/

/-- What is expected where a line starts is missed in both texts. -/
theorem carries_expected_between (what : Text) {V : α → α → Prop} {B : Cursor → Cursor → Prop} :
    Carries p.reports room m p.between (expected what : Grammar Rule α) (expected what) V B := by
  intro c c' hc
  have hplace := p.place_between hc
  cases p.opens hc with
  | ended h h' =>
    refine pairs_read (.fault (p.complaint_eq ?_ ?_ ?_) hplace) <;> rw [h, h']
  | beyond hloose =>
    refine pairs_read (.fault ?_ hplace)
    rw [hloose]
    trivial
  | line _ _ hwidth hcode _ _ =>
    -- both lines are indented, or they start with tokens that go together
    by_cases hzero : c.ahead.indentation = 0
    · rw [hzero, p.width_zero] at hwidth
      rw [hzero, hwidth] at hcode
      exact pairs_read (.fault (p.unexpected hcode) hplace)
    · have hpos : 0 < c.ahead.indentation := Nat.pos_of_ne_zero hzero
      have hpos' : 0 < c'.ahead.indentation := by
        rw [hwidth]
        exact p.width_pos hpos
      have hhead : c'.ahead.head? = c.ahead.head? :=
        (Text.head?_of_indentation_pos hpos').trans (Text.head?_of_indentation_pos hpos).symm
      refine pairs_read (.fault (p.complaint_eq ?_ ?_ ?_) hplace) <;> rw [hhead]

/-- The indentation of what a header governs is measured in both texts. -/
theorem carries_bodyIndent (header : Nat) :
    Carries p.reports room m p.between (read (Reader.bodyIndent header) : Grammar Rule Nat)
      (read (Reader.bodyIndent (p.width header))) (fun w w' => w' = p.width w ∧ 0 < w)
      p.between := by
  intro c c' hc
  have hcode := p.between_emptyLines hc
  -- the lines of code that are next, and where their places are seen from the cursors
  obtain ⟨d, hd⟩ : ∃ d, d = c.advanceBy c.ahead.emptyLinesLength := ⟨_, rfl⟩
  obtain ⟨d', hd'⟩ : ∃ d', d' = c'.advanceBy c'.ahead.emptyLinesLength := ⟨_, rfl⟩
  have hahead : d.ahead = c.ahead.drop c.ahead.emptyLinesLength := by
    rw [hd, Cursor.ahead_advanceBy]
  have hahead' : d'.ahead = c'.ahead.drop c'.ahead.emptyLinesLength := by
    rw [hd', Cursor.ahead_advanceBy]
  have hbehind : ∀ k, d.advanceBy k = c.advanceBy (c.ahead.emptyLinesLength + k) := fun k => by
    rw [hd, Cursor.advanceBy_advanceBy]
  have hbehind' : ∀ k, d'.advanceBy k = c'.advanceBy (c'.ahead.emptyLinesLength + k) := fun k => by
    rw [hd', Cursor.advanceBy_advanceBy]
  rw [← hd, ← hd'] at hcode
  refine pairs_read ?_
  simp only [Reader.bodyIndent, ← hahead, ← hahead']
  cases p.opens hcode with
  | ended h h' =>
    simp only [h, h', List.isEmpty_nil, reduceIte]
    refine .fault (p.reports.shift (p.complaint_eq rfl rfl rfl)) ?_
    have hplace := p.place_between hcode
    rw [hd, hd', ← Nat.zero_add (Text.emptyLinesLength c.ahead),
      ← Nat.zero_add (Text.emptyLinesLength c'.ahead)] at hplace
    exact hplace
  | beyond hloose h h' hforeign _ _ =>
    -- the line of code that is next in the second text alone is not indented
    have hne : d'.ahead.isEmpty = false := by simpa using h'
    have hwidth : d'.ahead.indentation = 0 := by
      rw [hahead', ← Text.nextCode] at h' hforeign ⊢
      rw [Text.nextCode_nextCode] at hforeign
      exact (hforeign.resolve_left h').1
    simp only [h, hne, hwidth, List.isEmpty_nil, reduceIte, Bool.false_eq_true, Nat.not_lt_zero]
    have hplace := p.place_between hcode
    have hindent : ∀ relation : Text, (Complaint.indentation relation (p.width header) d'.ahead
        c'.ahead.emptyLinesLength).distance = c'.ahead.emptyLinesLength := by
      intro relation
      rw [Complaint.indentation, hwidth, Nat.add_zero]
    refine .fault ?_ ?_
    · rw [hloose]
      trivial
    · rw [hindent, ← hd']
      rw [hd, ← Nat.zero_add (Text.emptyLinesLength c.ahead)] at hplace
      exact hplace
  | line h h' hwidth hline _ _ =>
    have hne : d.ahead.isEmpty = false := by simpa using h
    have hne' : d'.ahead.isEmpty = false := by simpa using h'
    simp only [hne, hne', hwidth, p.width_lt_iff, Bool.false_eq_true, reduceIte]
    split
    · next hlt => exact .took ⟨⟨rfl, Nat.lt_of_le_of_lt (Nat.zero_le _) hlt⟩, hc⟩
    · have hsame := p.sameStart hline
      rw [Cursor.ahead_advanceBy, Cursor.ahead_advanceBy] at hsame
      have hplace := p.place_inside hline
      rw [hbehind, hbehind'] at hplace
      exact .fault (p.complaint_indentation hwidth hsame) hplace

/--
Where only the first text ends, the line of code that is next in the other one is not one that is
sought within a block, nor one that goes on with an `if`.
-/
theorem seekLine_eq_false {width : Nat} {accept : Text → Bool} (hnil : accept [] = false)
    (hbeyond : 0 < width ∨ p.fresh ∧ ∀ t : Text, Text.startsWord "elif" t = false →
      Text.startsWord "else" t = false → accept t = false) (hc : p.between c c')
    (hended : c.ahead.nextCode = []) :
    Reader.seekLine (p.width width) accept c'.ahead = .took false 0 := by
  have hahead : ∀ d : Cursor, (d.advanceBy d.ahead.emptyLinesLength).ahead = d.ahead.nextCode :=
    fun d => Cursor.ahead_advanceBy _ d
  refine Reader.seekLine_eq_false fun hwidth => ?_
  cases p.opens (p.between_emptyLines hc) with
  | ended _ h' =>
    rw [← hahead, h', List.drop_nil, hnil]
  | line h => exact absurd ((hahead c).trans hended) h
  | beyond _ _ h' hforeign _ _ =>
    rw [hahead] at h' hforeign
    rw [Text.nextCode_nextCode] at hforeign
    obtain ⟨hzero, hfresh⟩ := hforeign.resolve_left h'
    -- a foreign line stands at level 0, where only `elif` and `else` could belong to the item
    have hwidthzero : width = 0 := by
      refine Nat.eq_zero_of_not_pos fun hpos => ?_
      have hpos' := p.width_pos hpos
      omega
    obtain ⟨hisFresh, hreject⟩ := hbeyond.resolve_left (by omega)
    obtain ⟨helif, helse⟩ := hfresh hisFresh
    rw [hwidthzero, p.width_zero, List.drop_zero, hreject _ helif helse]

/-- The next line of code is sought in both texts, if none is found where only the first one ends. -/
theorem pairs_seekLine {width : Nat} {accept : Text → Bool}
    (hsame : ∀ {t t' : Text}, t ≠ [] → t' ≠ [] → t.SameToken t' → accept t' = accept t)
    (hnil : accept [] = false)
    (hends : c.ahead.nextCode = [] → Reader.seekLine (p.width width) accept c'.ahead = .took false 0)
    (hc : p.between c c') :
    Pairs p.reports room m (read (Reader.seekLine width accept) : Grammar Rule Bool)
      (read (Reader.seekLine (p.width width) accept)) c c' fun found found' d d' =>
        found = found' ∧ if found then p.inside [] d d' else d = c ∧ d' = c' := by
  refine pairs_read ?_
  by_cases hended : c.ahead.nextCode = []
  · have hnone : Reader.seekLine width accept c.ahead = .took false 0 := by
      refine Reader.seekLine_eq_false fun _ => ?_
      rw [hended, List.drop_nil, hnil]
    rw [hnone, hends hended]
    exact .took ⟨rfl, rfl, rfl⟩
  have hcode := p.between_emptyLines hc
  rw [← Cursor.advanceBy_codeDistance, ← Cursor.advanceBy_codeDistance] at hcode
  obtain ⟨d, hd⟩ : ∃ d, d = c.advanceBy c.ahead.codeDistance := ⟨_, rfl⟩
  obtain ⟨d', hd'⟩ : ∃ d', d' = c'.advanceBy c'.ahead.codeDistance := ⟨_, rfl⟩
  have hahead : d.ahead = c.ahead.drop c.ahead.codeDistance := by rw [hd, Cursor.ahead_advanceBy]
  have hahead' : d'.ahead = c'.ahead.drop c'.ahead.codeDistance := by
    rw [hd', Cursor.ahead_advanceBy]
  rw [← hd, ← hd'] at hcode
  simp only [Reader.seekLine, ← hahead, ← hahead']
  rw [← Text.drop_codeDistance, ← hahead] at hended
  cases p.opens hcode with
  | ended h => exact absurd h hended
  | beyond _ h => exact absurd h hended
  | line h h' hwidth hline _ _ =>
    have hsamecode := p.sameStart hline
    have htoken := p.sameToken hline
    rw [Cursor.ahead_advanceBy, Cursor.ahead_advanceBy] at hsamecode htoken
    have hcodeline : d.ahead.isEmptyLine = false := by
      rw [hahead, Text.drop_codeDistance] at h ⊢
      exact (Text.isEmptyLine_nextCode _).resolve_left h
    have hcodeline' : d'.ahead.isEmptyLine = false :=
      (Text.isEmptyLine_eq hsamecode).trans hcodeline
    -- the widths are equal on both sides or on neither, as the layout keeps them apart
    have heq : (d'.ahead.indentation == p.width width && accept (d'.ahead.drop (p.width width)))
        = (d.ahead.indentation == width && accept (d.ahead.drop width)) := by
      rw [hwidth]
      by_cases hw : d.ahead.indentation = width
      · have haccept := hsame (Text.drop_indentation_ne_nil hcodeline)
          (Text.drop_indentation_ne_nil hcodeline') htoken
        rw [hwidth, hw] at haccept
        rw [hw, beq_self_eq_true, beq_self_eq_true, haccept]
      · have hne : p.width d.ahead.indentation ≠ p.width width := fun h => hw (p.width_inj h)
        rw [beq_eq_false_iff_ne.mpr hw, beq_eq_false_iff_ne.mpr hne]
        rfl
    rw [heq]
    split
    · next hfound =>
      rw [Bool.and_eq_true, beq_iff_eq] at hfound
      rw [hwidth, hfound.1, hd, hd', Cursor.advanceBy_advanceBy, Cursor.advanceBy_advanceBy] at hline
      exact .took ⟨rfl, hline⟩
    · exact .took ⟨rfl, rfl, rfl⟩

end Pairing

end GDScript
