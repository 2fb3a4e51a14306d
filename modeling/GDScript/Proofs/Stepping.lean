import GDScript.Proofs.Indentation.Opening

/-!
# Line by line

A search for the next line of code is a single reader, and a block passes over several lines in one
turn. Here both are done with one turn for each line. Dropping line by line is the same as dropping at
once (`Grammar.run_iterate_skipTurn`), and a block that goes line by line has the same lines, or fails
in the same way (`Script.result_iterate_byLineTurn`); only the place where it stops looking is another
one.
-/

namespace GDScript

open Grammar

/-! ### Dropping lines -/

namespace Text

variable {droppable : Text → Bool} {t : Text}

/-- The first line is dropped, and then those behind it. -/
theorem drop_lineLength_droppedLength (h : droppable t = true) :
    (t.drop t.lineLength).drop (droppedLength droppable false (t.drop t.lineLength))
      = t.drop (t.droppedLength droppable false) := by
  have hl : ∀ u ∈ t.takeWhile (· != CodeUnit.lineFeed), u ≠ CodeUnit.lineFeed :=
    fun u hu => by simpa using List.mem_takeWhile_imp hu
  have hfeed := avoids_dropWhile (· != CodeUnit.lineFeed) t
  have hsplit : t.takeWhile (· != CodeUnit.lineFeed) ++ t.dropWhile (· != CodeUnit.lineFeed) = t :=
    List.takeWhile_append_dropWhile
  rw [lineLength, droppedLength_of_droppable h]
  generalize t.takeWhile (· != CodeUnit.lineFeed) = l at hl hsplit ⊢
  -- the last line has no line feed behind it
  cases hrest : t.dropWhile (· != CodeUnit.lineFeed) with
  | nil =>
    rw [hrest, List.append_nil] at hsplit
    subst hsplit
    rw [droppedLength_lastLine hl, List.drop_length, List.drop_eq_nil_of_le (Nat.le_succ _),
      List.drop_nil]
  | cons u rest =>
    rw [hrest] at hfeed hsplit
    obtain rfl : u = CodeUnit.lineFeed := by simpa using hfeed
    have hbehind : t.drop (l.length + 1) = rest := by
      rw [← hsplit, List.append_cons]
      exact List.drop_left' (by rw [List.length_append, List.length_singleton])
    have hdropped : t.droppedLength droppable true
        = l.length + 1 + droppedLength droppable false rest := by
      rw [← hsplit, droppedLength_line hl]
    rw [hbehind, hdropped, ← List.drop_drop, hbehind]

/-- A line break is a blank line. -/
theorem lineLength_of_lineBreakLength_ne_zero (h : t.lineBreakLength ≠ 0) :
    t.isBlankLine = true ∧ t.lineBreakLength = t.lineLength := by
  obtain ⟨l, rest, hl, rfl, hlength⟩ := t.lineBreakLength_cases.resolve_left h
  rcases hl with rfl | rfl
  · exact ⟨rfl, hlength⟩
  · exact ⟨rfl, hlength⟩

/-- There is a line, and it is to be dropped. -/
def startsDroppable (droppable : Text → Bool) (t : Text) : Bool := !t.isEmpty && droppable t

theorem droppable_of_startsDroppable (h : t.startsDroppable droppable = true) :
    droppable t = true :=
  (Bool.and_eq_true_iff.mp h).2

theorem ne_nil_of_startsDroppable (h : t.startsDroppable droppable = true) : t ≠ [] := by
  rintro rfl
  exact Bool.noConfusion h

theorem droppedLength_of_startsDroppable_eq_false (h : t.startsDroppable droppable = false) :
    t.droppedLength droppable false = 0 := by
  cases t with
  | nil => rfl
  | cons u t =>
    have hkept : droppable (u :: t) = false := h
    rw [droppedLength, hkept, Bool.or_false, if_neg Bool.false_ne_true]

end Text

namespace Cursor

variable {c : Cursor}

/-- The cursor at the start of the next line. -/
def nextLine (c : Cursor) : Cursor := c.advanceBy c.ahead.lineLength

theorem length_nextLine_lt (hne : c.ahead ≠ []) :
    c.nextLine.ahead.length < c.ahead.length := by
  have hpos := List.length_pos_iff.mpr hne
  rw [nextLine, ahead_advanceBy, List.length_drop, Text.lineLength]
  omega

/-- From the next line on, what is dropped ends at the same place. -/
theorem advanceBy_droppedLength_nextLine {droppable : Text → Bool}
    (h : droppable c.ahead = true) :
    c.nextLine.advanceBy (c.nextLine.ahead.droppedLength droppable false)
      = c.advanceBy (c.ahead.droppedLength droppable false) := by
  have hline : c.Reaches c.nextLine := c.reaches_advanceBy _
  refine (hline.trans (Cursor.reaches_advanceBy _ _)).eq_of_ahead_eq (c.reaches_advanceBy _) ?_
  rw [ahead_advanceBy, ahead_advanceBy, nextLine, ahead_advanceBy]
  exact Text.drop_lineLength_droppedLength h

end Cursor

namespace Grammar

variable {R : Type → Type} [RuleSet R] {σ : Type} {room : Nat} {droppable : Text → Bool} {x : σ}
  {otherwise : Grammar R (Next σ)} {scope : Scope} {c : Cursor} {journal : Journal}

/-- Another turn behind the first line, if it is to be dropped; otherwise something else. -/
def dropLineOr (droppable : Text → Bool) (x : σ) (otherwise : Grammar R (Next σ)) :
    Grammar R (Next σ) := do
  if ← look (Text.startsDroppable droppable) then
    read Reader.skipLine
    return .again x
  else otherwise

theorem run_dropLineOr_of_droppable (h : c.ahead.startsDroppable droppable = true) :
    run room (dropLineOr droppable x otherwise) scope c journal
      = .finished (.again x) c.nextLine journal := by
  simp only [dropLineOr, look, run_bind, Parser.bind, run_read, Parser.read, Cursor.read, Reader.look,
    h, Cursor.advanceBy_zero, if_true, run_pure, Parser.pure]
  rfl

theorem run_dropLineOr_of_not_droppable (h : c.ahead.startsDroppable droppable = false) :
    run room (dropLineOr droppable x otherwise) scope c journal
      = run room otherwise scope c journal := by
  simp only [dropLineOr, look, run_bind, Parser.bind, run_read, Parser.read, Cursor.read, Reader.look,
    h, Cursor.advanceBy_zero, Bool.false_eq_true, if_false]

/-- Turns that take something still do if they may also drop a line. -/
theorem TurnsAdvance.dropLineOr {otherwise : σ → Grammar R (Next σ)}
    (h : TurnsAdvance room otherwise) (droppable : Text → Bool) :
    TurnsAdvance room fun x => dropLineOr droppable x (otherwise x) := by
  intro x c scope journal next c' journal' hrun
  cases hdrop : c.ahead.startsDroppable droppable with
  | true =>
    rw [run_dropLineOr_of_droppable hdrop] at hrun
    cases hrun
    exact Cursor.length_nextLine_lt (Text.ne_nil_of_startsDroppable hdrop)
  | false =>
    rw [run_dropLineOr_of_not_droppable hdrop] at hrun
    exact h x c scope journal next c' journal' hrun

/-- The turn of dropping lines. -/
def skipTurn (droppable : Text → Bool) (x : Unit) : Grammar R (Next Unit) :=
  dropLineOr droppable x (return .done x)

variable (R room droppable)

theorem turnsAdvance_skipTurn :
    TurnsAdvance room (skipTurn droppable : Unit → Grammar R (Next Unit)) :=
  TurnsAdvance.dropLineOr (fun _ _ => yields_pure trivial) droppable

/-- Lines are dropped one after the other. -/
theorem run_iterate_skipTurn :
    run room (iterate (skipTurn droppable) () : Grammar R Unit)
      = Parser.read (Reader.skip (Text.droppedLength droppable false)) := by
  funext scope c journal
  -- on what is left: a turn drops one line, as the skip does with the first of its lines
  induction hlength : c.ahead.length using Nat.strongRecOn generalizing c with
  | _ length ih =>
    rw [run_iterate_eq_run_follow (turnsAdvance_skipTurn R room droppable)]
    cases hdrop : c.ahead.startsDroppable droppable with
    | true =>
      have hlt := Cursor.length_nextLine_lt (Text.ne_nil_of_startsDroppable hdrop)
      rw [skipTurn, run_bind_of_finished (run_dropLineOr_of_droppable hdrop), follow,
        ih _ (hlength ▸ hlt) _ rfl]
      show Outcome.finished () (Cursor.advanceBy _ _) journal
        = .finished () (Cursor.advanceBy _ _) journal
      rw [Cursor.advanceBy_droppedLength_nextLine (Text.droppable_of_startsDroppable hdrop)]
    | false =>
      have hturn : run room (skipTurn droppable () : Grammar R (Next Unit)) scope c journal
          = .finished (.done ()) c journal := by
        rw [skipTurn, run_dropLineOr_of_not_droppable hdrop, run_pure, Parser.pure]
      rw [run_bind_of_finished hturn, follow, run_pure]
      show Outcome.finished () c journal = .finished () (Cursor.advanceBy _ _) journal
      rw [Text.droppedLength_of_startsDroppable_eq_false hdrop, Cursor.advanceBy_zero]

end Grammar

/-! ### The lines of a block -/

/-- What a run finds, or how it fails, and its journal; where the cursor is left is forgotten. -/
def Outcome.result {α : Type} : Outcome α → Except Failure α × Journal
  | .finished v _ journal => (.ok v, journal)
  | .failed failure journal => (.error failure, journal)

namespace Script

variable {room level : Nat} {required : Bool} {lines : Block} {c d : Cursor} {scope : Scope}
  {journal journal' : Journal}

/-- The turn of a block, with the line break behind the line that it takes. -/
def takeLine (level : Nat) (required : Bool) (lines : Block) : Grammar Rule (Next Block) := do
  match ← blockTurn level required lines with
  | .again lines =>
    let _ ← read Reader.lineBreak
    return .again lines
  | .done lines => return .done lines

/-- The turn of a block that passes over one line at a time. -/
def byLineTurn (level : Nat) (required : Bool) (lines : Block) : Grammar Rule (Next Block) :=
  dropLineOr (isPassedOver level) lines (takeLine level required lines)

/-- A block that has passed over the first line comes to the same place. -/
theorem passOver_nextLine (h : isPassedOver level c.ahead = true) :
    passOver level c.nextLine = passOver level c :=
  Cursor.advanceBy_droppedLength_nextLine h

/-- A line break makes no difference either. -/
theorem passOver_lineBreak (c : Cursor) :
    passOver level (c.advanceBy c.ahead.lineBreakLength) = passOver level c := by
  by_cases hbreak : c.ahead.lineBreakLength = 0
  · rw [hbreak, Cursor.advanceBy_zero]
  · obtain ⟨hblank, hlength⟩ := Text.lineLength_of_lineBreakLength_ne_zero hbreak
    rw [hlength]
    exact passOver_nextLine (isPassedOver_of_isBlankLine hblank)

/-- Only what comes behind the lines that are passed over decides about a turn of a block. -/
theorem run_blockTurn_cases (h : passOver level c = passOver level d) (room : Nat)
    (required : Bool) (lines : Block) (scope : Scope) (journal : Journal) :
    Grammar.run room (blockTurn level required lines) scope c journal
        = Grammar.run room (blockTurn level required lines) scope d journal ∨
      ∃ journal', Grammar.run room (blockTurn level required lines) scope c journal
          = .finished (.done lines) c journal' ∧
        Grammar.run room (blockTurn level required lines) scope d journal
          = .finished (.done lines) d journal' := by
  obtain ⟨g, hline⟩ : ∃ g, blockLine level (required && lines.all Line.isComment)
      = Grammar.optional (do
        read (Reader.skip (Text.droppedLength (isPassedOver level) false))
        g) := ⟨_, rfl⟩
  have hrun : ∀ c, Grammar.run room (blockLine level (required && lines.all Line.isComment)) scope c
      journal = Parser.rewindIf Option.isNone (fun _ _ _ => Grammar.run room g scope (passOver level c)
        journal) scope c journal := by
    intro c
    rw [hline, Grammar.optional, run_rewindIf, Parser.rewindIf, Parser.rewindIf,
      run_bind_of_finished (run_read_of_took rfl)]
    rfl
  rw [blockTurn, run_bind, Parser.bind, Parser.bind, hrun, hrun, h, Parser.rewindIf,
    Parser.rewindIf]
  -- a line that is found ends at the same place, and where none is found the cursor goes back
  cases Grammar.run room g scope (passOver level d) journal with
  | failed failure journal' => exact .inl rfl
  | finished found e journal' =>
    cases found with
    | some items => exact .inl rfl
    | none =>
      refine .inr ⟨journal', ?_, ?_⟩
      · simp only [Option.isNone_none, if_true, run_pure, Parser.pure]
      · simp only [Option.isNone_none, if_true, run_pure, Parser.pure]

/-- And so it does about all turns, which differ in no more than where they leave the cursor. -/
theorem result_iterate_blockTurn (h : passOver level c = passOver level d) :
    (Grammar.run room (iterate (blockTurn level required) lines) scope c journal).result
      = (Grammar.run room (iterate (blockTurn level required) lines) scope d journal).result := by
  rw [run_iterate_eq_run_follow (turnsAdvance_blockTurn room level required), run_bind, Parser.bind,
    Parser.bind]
  rcases run_blockTurn_cases h room required lines scope journal with heq | ⟨journal', hc, hd⟩
  · rw [heq]
  · rw [hc, hd]
    simp only [follow, run_pure, Parser.pure, Outcome.result]

theorem run_takeLine_of_again {more : Block}
    (h : Grammar.run room (blockTurn level required lines) scope c journal
      = .finished (.again more) d journal') :
    Grammar.run room (takeLine level required lines) scope c journal
      = .finished (.again more) (d.advanceBy d.ahead.lineBreakLength) journal' := by
  rw [takeLine, run_bind_of_finished h]
  simp only [run_bind, Parser.bind, run_read, Parser.read, Cursor.read, Reader.lineBreak, run_pure,
    Parser.pure]

theorem turnsAdvance_takeLine (room level : Nat) (required : Bool) :
    TurnsAdvance room (takeLine level required) := by
  refine fun lines c => (turnsAdvance_blockTurn room level required lines c).bind fun next c₁ hnext => ?_
  cases next with
  | done y => exact yields_pure trivial
  | again y =>
    refine (yields_reaches room _ c₁).bind fun _ c₂ h₂ => yields_pure ?_
    exact Nat.lt_of_le_of_lt h₂.length_le hnext

theorem turnsAdvance_byLineTurn (room level : Nat) (required : Bool) :
    TurnsAdvance room (byLineTurn level required) :=
  (turnsAdvance_takeLine room level required).dropLineOr (isPassedOver level)

/-- A block that goes line by line has the same lines, or fails in the same way. -/
theorem result_iterate_byLineTurn (room level : Nat) (required : Bool) (lines : Block)
    (scope : Scope) (c : Cursor) (journal : Journal) :
    (Grammar.run room (iterate (byLineTurn level required) lines) scope c journal).result
      = (Grammar.run room (iterate (blockTurn level required) lines) scope c journal).result := by
  induction hlength : c.ahead.length using Nat.strongRecOn generalizing lines c journal with
  | _ length ih =>
    rw [run_iterate_eq_run_follow (turnsAdvance_byLineTurn room level required)]
    cases hpassed : c.ahead.startsDroppable (isPassedOver level) with
    | true =>
      have hlt := Cursor.length_nextLine_lt (Text.ne_nil_of_startsDroppable hpassed)
      rw [byLineTurn, run_bind_of_finished (run_dropLineOr_of_droppable hpassed), follow,
        ih _ (hlength ▸ hlt) _ _ _ rfl]
      exact result_iterate_blockTurn
        (passOver_nextLine (Text.droppable_of_startsDroppable hpassed))
    | false =>
      have hline : Grammar.run room (byLineTurn level required lines) scope c journal
          = Grammar.run room (takeLine level required lines) scope c journal :=
        run_dropLineOr_of_not_droppable hpassed
      rw [run_iterate_eq_run_follow (turnsAdvance_blockTurn room level required)]
      cases hturn : Grammar.run room (blockTurn level required lines) scope c journal with
      | failed failure journal' =>
        rw [takeLine, run_bind_of_failed hturn] at hline
        rw [run_bind_of_failed hline, run_bind_of_failed hturn]
      | finished next c' journal' =>
        cases next with
        | done y =>
          rw [takeLine, run_bind_of_finished hturn, run_pure, Parser.pure] at hline
          rw [run_bind_of_finished hline, run_bind_of_finished hturn, follow, follow]
        | again y =>
          -- behind the line break less is ahead, and what comes next is the same as in front of it
          rw [run_takeLine_of_again hturn] at hline
          have hlt := turnsAdvance_byLineTurn room level required _ _ _ _ _ _ _ hline
          rw [run_bind_of_finished hline, run_bind_of_finished hturn, follow, follow,
            ih _ (hlength ▸ hlt) _ _ _ rfl]
          exact result_iterate_blockTurn (passOver_lineBreak c')

end Script

end GDScript
