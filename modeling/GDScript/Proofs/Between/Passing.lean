import GDScript.Proofs.Lexeme.Line

/-!
# What is passed over between lines

`Text.isTrivia` holds of blanks, line ends, semicolons and comments. What a block passes over is
less tame: lines are dropped up to their line feed, and a line counts as blank when a line end of
either kind follows its blanks, so whatever stands between a carriage return and the next line feed
is dropped too. `Passing` is where in such a stretch one stands, and `Passing.after` reads on.

The two agree exactly where nothing but trivia follows a carriage return on its line
(`Text.isTrivia_iff_keepsReturns`).
-/

namespace GDScript

/-! ### Trivia -/

/-- The semicolon, which stands between the items of a line. -/
abbrev CodeUnit.semicolon : CodeUnit := 0x3B

namespace Text

/--
The text holds only spaces, tabs, line ends, semicolons and comments, which go up to a line end.
With `inComment` it starts within a comment.
-/
def isTrivia : (inComment : Bool) → Text → Bool
  | _, [] => true
  | inComment, u :: rest =>
    if u.isLineEnd then isTrivia false rest
    else if inComment then isTrivia true rest
    else if u.isSpace || u == CodeUnit.semicolon then isTrivia false rest
    else if u == CodeUnit.hash then isTrivia true rest
    else false

/-- After every carriage return there is only trivia up to the next line feed. -/
def KeepsReturns (t : Text) : Prop :=
  ∀ a b, t = a ++ CodeUnit.carriageReturn :: b →
    isTrivia false (b.takeWhile (· != CodeUnit.lineFeed)) = true

theorem KeepsReturns.tail {u : CodeUnit} {t : Text} (h : KeepsReturns (u :: t)) :
    t.KeepsReturns := by
  intro a b hab
  exact h (u :: a) b (by rw [hab, List.cons_append])

/-- The beginning of trivia is trivia. -/
theorem isTrivia_of_append {s t : Text} {inComment : Bool}
    (h : isTrivia inComment (s ++ t) = true) : isTrivia inComment s = true := by
  induction s generalizing inComment with
  | nil => rfl
  | cons u s ih =>
    rw [List.cons_append, isTrivia] at h
    rw [isTrivia]
    split_ifs at h ⊢ with hend hcomment hspace hhash
    all_goals exact ih h

/-- What follows a line end is trivia on its own. -/
theorem isTrivia_of_lineEnd {u : CodeUnit} {s t : Text} {inComment : Bool}
    (hu : u.isLineEnd = true) (h : isTrivia inComment (s ++ u :: t) = true) :
    isTrivia false t = true := by
  induction s generalizing inComment with
  | nil => rwa [List.nil_append, isTrivia, if_pos hu] at h
  | cons v s ih =>
    rw [List.cons_append, isTrivia] at h
    split_ifs at h with hend hcomment hspace hhash
    all_goals exact ih h

theorem keepsReturns_of_isTrivia {t : Text} (h : isTrivia false t = true) : t.KeepsReturns := by
  intro a b hab
  subst hab
  have hb : isTrivia false b = true := isTrivia_of_lineEnd (by decide) h
  rw [← List.takeWhile_append_dropWhile (p := (· != CodeUnit.lineFeed)) (l := b)] at hb
  exact isTrivia_of_append hb

/-- In a part of a text where line feeds follow the carriage returns nothing stands behind one. -/
theorem keepsReturns_of_isInfix {gap source : Text} (h : gap <:+: source)
    (hfeeds : ∀ a b, source = a ++ CodeUnit.carriageReturn :: b →
      b.head?.all (· == CodeUnit.lineFeed) = true) : gap.KeepsReturns := by
  obtain ⟨s, t, rfl⟩ := h
  intro a b hab
  subst hab
  cases b with
  | nil => rfl
  | cons u b =>
    have hhead := hfeeds (s ++ a) (u :: b ++ t) (by simp)
    have hu : (u == CodeUnit.lineFeed) = true := hhead
    rw [List.takeWhile_cons_of_neg (by simpa using hu)]
    rfl

end Text

/-! ### Reading on -/

/-- Where one stands in what is passed over. -/
inductive Passing where
  /-- Between lexemes. -/
  | free
  /-- In a comment. -/
  | comment
  /-- Behind a carriage return, in a line that is dropped. -/
  | rest
deriving DecidableEq, Repr

namespace Passing

/-- Where one stands behind the next unit, which has to be trivia where nothing is dropped. -/
def step (p : Passing) (u : CodeUnit) : Option Passing :=
  if u == CodeUnit.lineFeed then some .free
  else match p with
    | .rest => some .rest
    | .comment => some (if u == CodeUnit.carriageReturn then .rest else .comment)
    | .free =>
      if u == CodeUnit.carriageReturn then some .rest
      else if u.isSpace || u == CodeUnit.semicolon then some .free
      else if u == CodeUnit.hash then some .comment
      else none

/-- Where one stands behind a text. -/
def after (p : Passing) (t : Text) : Option Passing := t.foldlM step p

variable {p q r : Passing}

@[simp] theorem after_nil (p : Passing) : p.after [] = some p := rfl

theorem after_cons {u : CodeUnit} {t : Text} (h : p.step u = some q) :
    p.after (u :: t) = q.after t := by
  rw [after, List.foldlM_cons, h]
  rfl

theorem after_append {s t : Text} (h : p.after s = some q) : p.after (s ++ t) = q.after t := by
  unfold after at h ⊢
  rw [List.foldlM_append, h]
  rfl

/-- Out of a comment or behind a carriage return nothing has to be trivia. -/
theorem exists_step (hp : p ≠ .free) {u : CodeUnit} (hu : u ≠ CodeUnit.lineFeed) :
    ∃ q, p.step u = some q ∧ q ≠ .free := by
  unfold step
  rw [if_neg (by simpa using hu)]
  cases p with
  | free => exact absurd rfl hp
  | rest => exact ⟨_, rfl, by decide⟩
  | comment => exact ⟨_, rfl, by split <;> decide⟩

theorem free_step_of_isSpace {u : CodeUnit} (hu : u.isSpace = true) :
    Passing.free.step u = some .free := by
  simp only [CodeUnit.isSpace, Bool.or_eq_true, beq_iff_eq] at hu
  rcases hu with rfl | rfl <;> rfl

theorem free_after_of_isSpace {g : Text} (hg : ∀ u ∈ g, u.isSpace = true) :
    Passing.free.after g = some .free := by
  induction g with
  | nil => rfl
  | cons u g ih =>
    rw [after_cons (free_step_of_isSpace (hg u List.mem_cons_self))]
    exact ih fun v hv => hg v (List.mem_cons_of_mem u hv)

/-- A comment is passed over up to its end. -/
theorem after_comment {c : Text} (hc : ∀ u ∈ c, u.isLineEnd = false) :
    Passing.comment.after c = some .comment := by
  induction c with
  | nil => rfl
  | cons u c ih =>
    have hu := hc u List.mem_cons_self
    rw [CodeUnit.isLineEnd, Bool.or_eq_false_iff] at hu
    have hstep : Passing.comment.step u = some .comment := by
      simp only [step, hu.1, hu.2, Bool.false_eq_true, if_false]
    rw [after_cons hstep]
    exact ih fun v hv => hc v (List.mem_cons_of_mem u hv)

end Passing

/-! ### When only trivia is passed over -/

/--
The text is read from the place on, in a comment or not. In a line that is dropped either will do,
but the rest of the line has to be trivia.
-/
def Passing.IsBefore (inComment : Bool) (t : Text) : Passing → Prop
  | .free => inComment = false
  | .comment => inComment = true
  | .rest => Text.isTrivia inComment (t.takeWhile (· != CodeUnit.lineFeed)) = true

/-- Reading on from a place is reading trivia, if only trivia stands behind carriage returns. -/
theorem Text.isTrivia_of_after {p q : Passing} {t : Text} {inComment : Bool}
    (h : p.after t = some q) (hkeeps : t.KeepsReturns) (hp : p.IsBefore inComment t) :
    isTrivia inComment t = true := by
  -- on the text; `IsBefore` says which place of the scan the passing is at
  induction t generalizing p inComment with
  | nil => rfl
  | cons u t ih =>
    have htail := hkeeps.tail
    obtain ⟨p', hstep, hafter⟩ : ∃ p', p.step u = some p' ∧ p'.after t = some q :=
      Option.bind_eq_some_iff.mp h
    unfold isTrivia
    by_cases hu : u = CodeUnit.lineFeed
    · subst hu
      obtain rfl := Option.some.inj hstep
      exact ih hafter htail rfl
    · unfold Passing.step at hstep
      rw [if_neg (by simpa using hu)] at hstep
      by_cases hreturn : u = CodeUnit.carriageReturn
      · -- Whatever the place was, the line that is dropped is the one behind this unit.
        subst hreturn
        have hline := hkeeps [] t rfl
        obtain rfl : p' = .rest := by
          cases p <;> exact (Option.some.inj hstep).symm
        exact ih hafter htail hline
      · have hend : u.isLineEnd = false := by
          simp [CodeUnit.isLineEnd, hu, hreturn]
        have hnot : (u == CodeUnit.carriageReturn) = false := by simpa using hreturn
        rw [hend, if_neg Bool.false_ne_true]
        cases p with
        | free =>
          obtain rfl : inComment = false := hp
          rw [if_neg Bool.false_ne_true]
          simp only [hnot, Bool.false_eq_true, if_false] at hstep
          split_ifs at hstep ⊢ with hspace hhash
          · obtain rfl := Option.some.inj hstep
            exact ih hafter htail rfl
          · obtain rfl := Option.some.inj hstep
            exact ih hafter htail rfl
        | comment =>
          obtain rfl : inComment = true := hp
          rw [if_pos rfl]
          rw [hnot] at hstep
          obtain rfl := Option.some.inj hstep
          exact ih hafter htail rfl
        | rest =>
          obtain rfl := Option.some.inj hstep
          have hline : isTrivia inComment ((u :: t).takeWhile (· != CodeUnit.lineFeed)) = true := hp
          rw [List.takeWhile_cons_of_pos (by simpa using hu), isTrivia, hend,
            if_neg Bool.false_ne_true] at hline
          split_ifs at hline ⊢ with hin hspace hhash
          all_goals exact ih hafter htail hline

/-- What is passed over is trivia exactly if no carriage return has anything else behind it. -/
theorem Text.isTrivia_iff_keepsReturns {q : Passing} {t : Text}
    (h : Passing.free.after t = some q) : isTrivia false t = true ↔ t.KeepsReturns := by
  constructor
  · exact keepsReturns_of_isTrivia
  · intro hkeeps
    exact isTrivia_of_after h hkeeps rfl

/-! ### Lines that are dropped -/

namespace Text

theorem isEmptyLine_of_isSpace {u : CodeUnit} {t : Text} (hu : u.isSpace = true) :
    isEmptyLine (u :: t) = t.isEmptyLine := by
  rw [isEmptyLine, isBlankLine, isCommentLine, List.dropWhile_cons_of_pos hu]
  rfl

end Text

namespace Passing

variable {p : Passing} {t : Text}

/-- One unit of a line that is dropped: an empty one, or one that one is in the middle of. -/
theorem exists_step_of_isEmptyLine {u : CodeUnit}
    (h : p ≠ .free ∨ Text.isEmptyLine (u :: t) = true) :
    ∃ q, p.step u = some q ∧ (u = CodeUnit.lineFeed → q = .free) ∧
      (u ≠ CodeUnit.lineFeed → q ≠ .free ∨ t.isEmptyLine = true) := by
  by_cases hu : u = CodeUnit.lineFeed
  · subst hu
    exact ⟨.free, rfl, fun _ => rfl, fun h => absurd rfl h⟩
  · by_cases hp : p = .free
    · subst hp
      have hline : Text.isEmptyLine (u :: t) = true := h.resolve_left fun hne => hne rfl
      by_cases hspace : u.isSpace = true
      · refine ⟨.free, free_step_of_isSpace hspace, fun h => absurd h hu, fun _ => .inr ?_⟩
        rwa [Text.isEmptyLine_of_isSpace hspace] at hline
      · -- an empty line goes on with its end or with a comment
        rw [Text.isEmptyLine, Text.isBlankLine, Text.isCommentLine,
          List.dropWhile_cons_of_neg hspace, Bool.or_eq_true] at hline
        rcases hline with hend | hhash
        · have hreturn : u = CodeUnit.carriageReturn := by
            have hend : u.isLineEnd = true := hend
            simpa [CodeUnit.isLineEnd, hu] using hend
          subst hreturn
          exact ⟨.rest, rfl, fun h => absurd h hu, fun _ => .inl (by decide)⟩
        · have hhash : u = CodeUnit.hash := by simpa using hhash
          subst hhash
          exact ⟨.comment, rfl, fun h => absurd h hu, fun _ => .inl (by decide)⟩
    · obtain ⟨q, hstep, hq⟩ := exists_step hp hu
      exact ⟨q, hstep, fun h => absurd h hu, fun _ => .inl hq⟩

/-- Nothing has to be trivia from here on, or the next line end is the next unit. -/
def IsSettled (p : Passing) (t : Text) : Prop := p = .free ∨ t.atLineEnd = true

variable {droppable : Text → Bool}

/--
Lines are passed over whole: behind those that are dropped one stands between lexemes, unless the
text is at its end.
-/
theorem exists_after_dropped (hblank : ∀ t, t.isBlankLine = true → droppable t = true)
    (hempty : ∀ t, droppable t = true → t.isEmptyLine = true) (inside : Bool)
    (h : if inside then p ≠ .free ∨ t.isEmptyLine = true else p.IsSettled t) :
    ∃ q, p.after (t.take (t.droppedLength droppable inside)) = some q ∧
      (q = .free ∨ t.drop (t.droppedLength droppable inside) = []) := by
  induction t generalizing p inside with
  | nil => exact ⟨p, rfl, .inr rfl⟩
  | cons u t ih =>
    rw [Text.droppedLength]
    by_cases hdrop : (inside || droppable (u :: t)) = true
    · -- within a line anything may be passed over, and at its start the line is empty
      have hline : p ≠ .free ∨ Text.isEmptyLine (u :: t) = true := by
        cases inside with
        | true => exact h
        | false => exact .inr (hempty _ hdrop)
      obtain ⟨q, hstep, hfeed, hother⟩ := exists_step_of_isEmptyLine hline
      rw [if_pos hdrop, List.take_succ_cons, List.drop_succ_cons, after_cons hstep]
      refine ih _ ?_
      by_cases hu : u = CodeUnit.lineFeed
      · rw [if_neg (by simpa using hu)]
        exact .inl (hfeed hu)
      · rw [if_pos (by simpa using hu)]
        exact hother hu
    · -- Nothing is dropped, so the line is not blank, and its first unit is no line end.
      rw [if_neg hdrop]
      rw [Bool.not_eq_true, Bool.or_eq_false_iff] at hdrop
      obtain ⟨rfl, hdroppable⟩ := hdrop
      refine ⟨p, rfl, .inl (h.resolve_right fun hend => ?_)⟩
      have hdropped := hblank _ (Text.isBlankLine_of_atLineEnd hend)
      rw [hdroppable] at hdropped
      exact Bool.false_ne_true hdropped

/-- The line break behind a line and the empty lines after it. -/
theorem exists_after_codeDistance (h : p.IsSettled t) :
    ∃ q, p.after (t.take t.codeDistance) = some q := by
  -- the rest of the line break first, in whose middle the cursor may stand
  have hbreak : ∃ q, p.after (t.take t.lineBreakLength) = some q ∧
      q.IsSettled (t.drop t.lineBreakLength) := by
    rcases t.lineBreakLength_cases with hnone | ⟨l, rest, hl, rfl, hlength⟩
    · rw [hnone]
      exact ⟨p, rfl, h⟩
    · rw [hlength]
      rcases hl with rfl | rfl
      · exact ⟨.free, rfl, .inl rfl⟩
      · obtain ⟨q, hstep⟩ : ∃ q, p.step CodeUnit.carriageReturn = some q := by
          cases p <;> exact ⟨_, rfl⟩
        refine ⟨.free, ?_, .inl rfl⟩
        change p.after (CodeUnit.carriageReturn :: [CodeUnit.lineFeed]) = some .free
        rw [after_cons hstep]
        rfl
  obtain ⟨q, hafter, hsettled⟩ := hbreak
  obtain ⟨r, hafter', -⟩ :=
    exists_after_dropped (fun _ => Text.isEmptyLine_of_isBlankLine) (fun _ ht => ht) false hsettled
  refine ⟨r, ?_⟩
  rw [Text.codeDistance, List.take_add, after_append hafter]
  exact hafter'

end Passing

end GDScript
