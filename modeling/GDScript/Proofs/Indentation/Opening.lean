import GDScript.Proofs.Indentation.Script
import GDScript.Proofs.Items
import GDScript.Proofs.Lexeme.Literal
import GDScript.Proofs.Report.Final
import GDScript.Proofs.Unrolling

/-!
# What a header opens

The width of a block is measured ahead of it, on the next line of code, and the lines of the block are
then read from where the measuring started. Both come to the same line:

* `Text.leadsToCode_nextCode`: the lines before the one that is measured are empty;
* `Cursor.read_seekLine`: a search for a line of the width that was measured finds this line;
* `Script.exists_run_blockTurns`: a block of this width takes comments up to this line, and passes over
  the other empty lines, so the line is read as if it were the first one;
* `Rule.failsRegularly`: behind it only the depth limit makes the block fail.

`Script.opens_block` puts them together.
-/

namespace GDScript

open Grammar

/-! ### The line that is measured -/

namespace Text

/-- The text is led by empty lines up to the line of code that `code` starts with. -/
inductive LeadsToCode : Text → Text → Prop where
  | here {t : Text} (h : t.isEmptyLine = false) : LeadsToCode t t
  | line {l t code : Text} (hl : ∀ u ∈ l, u ≠ CodeUnit.lineFeed)
      (h : isEmptyLine (l ++ CodeUnit.lineFeed :: t) = true) (hnext : LeadsToCode t code) :
      LeadsToCode (l ++ CodeUnit.lineFeed :: t) code

theorem leadsToCode_nextCode {t : Text} (h : t.nextCode ≠ []) : t.LeadsToCode t.nextCode := by
  induction hlength : t.length using Nat.strongRecOn generalizing t with
  | _ n ih =>
    by_cases hempty : t.isEmptyLine = true
    · -- the line is dropped up to its line feed, and what is left is shorter
      have hnext := nextCode_behindLine hempty
      have hfeed := avoids_dropWhile (· != CodeUnit.lineFeed) t
      have hsplit : t.takeWhile (· != CodeUnit.lineFeed) ++ t.behindLine = t :=
        List.takeWhile_append_dropWhile
      cases hrest : t.behindLine with
      | nil =>
        rw [hrest] at hnext
        exact absurd hnext.symm h
      | cons u rest =>
        rw [← behindLine, hrest] at hfeed
        obtain rfl : u = CodeUnit.lineFeed := by simpa using hfeed
        rw [hrest] at hsplit hnext
        have hbreak : nextCode rest = t.nextCode :=
          (nextCode_drop_lineBreakLength (CodeUnit.lineFeed :: rest)).trans hnext
        have hshorter : rest.length < n := by
          rw [← hlength, ← hsplit, List.length_append, List.length_cons]
          omega
        have hrestCode := ih rest.length hshorter (hbreak ▸ h) rfl
        rw [hbreak] at hrestCode
        rw [← hsplit] at hempty
        have hline := LeadsToCode.line (fun u hu => by simpa using List.mem_takeWhile_imp hu)
          hempty hrestCode
        rwa [hsplit] at hline
    · rw [Bool.not_eq_true] at hempty
      rw [nextCode_of_isEmptyLine_eq_false hempty]
      exact .here hempty

/-- The first line of code of the text is indented by exactly `level`, and then `code` comes. -/
structure OpensWith (t : Text) (level : Nat) (code : Text) : Prop where
  leads : t.LeadsToCode (spaces level ++ code)
  avoids : code.Avoids (· == CodeUnit.space)

/-- The next line of code of the text is there, and indented by exactly `level`. -/
structure HasNext (t : Text) (level : Nat) : Prop where
  ne_nil : t.nextCode ≠ []
  indentation_eq : t.nextCode.indentation = level

variable {t : Text} {level : Nat}

theorem HasNext.opensWith (h : t.HasNext level) : t.OpensWith level (t.nextCode.drop level) where
  leads := by
    have hsplit : spaces level ++ t.nextCode.drop level = t.nextCode := by
      rw [← h.indentation_eq, ← take_indentation, List.take_append_drop]
    rw [hsplit]
    exact leadsToCode_nextCode h.ne_nil
  avoids := avoids_drop_indentation h.indentation_eq

/-- Spaces alone make no line of code. -/
theorem HasNext.drop_ne_nil (h : t.HasNext level) : t.nextCode.drop level ≠ [] := by
  intro hnil
  have hempty := (isEmptyLine_nextCode t).resolve_left h.ne_nil
  have hsplit := List.take_append_drop level t.nextCode
  rw [hnil, List.append_nil, ← h.indentation_eq, take_indentation] at hsplit
  have hspaces : IsGap false (spaces t.nextCode.indentation) := fun u hu => by
    rw [List.eq_of_mem_replicate hu]
    rfl
  have hblank := isBlankLine_append hspaces (t := []) rfl
  rw [List.append_nil, hsplit] at hblank
  rw [isEmptyLine_of_isBlankLine hblank] at hempty
  exact Bool.noConfusion hempty

/-- A search for a line of that width finds the next line of code. -/
theorem HasNext.seekLine_eq (h : t.HasNext level) :
    Statement.seekLine level t = .took true (t.codeDistance + level) := by
  have hne := h.drop_ne_nil
  rw [Statement.seekLine, Reader.seekLine, drop_codeDistance, if_pos]
  rw [Bool.and_eq_true, beq_iff_eq, Bool.not_eq_true', List.isEmpty_eq_false_iff]
  exact ⟨h.indentation_eq, hne⟩

end Text

namespace Cursor

variable {c a b : Cursor} {level : Nat}

/-- Two places that a cursor reaches are the same if the same is ahead of them. -/
theorem Reaches.eq_of_ahead_eq (ha : c.Reaches a) (hb : c.Reaches b) (h : a.ahead = b.ahead) :
    a = b := by
  obtain ⟨k, hk, rfl⟩ := ha
  obtain ⟨m, hm, rfl⟩ := hb
  have hlength := congrArg List.length h
  rw [ahead_advanceBy, ahead_advanceBy, List.length_drop, List.length_drop] at hlength
  obtain rfl : k = m := by omega
  rfl

/-- The place behind the indentation of the next line of code, which is as wide as `level`. -/
def toCode (level : Nat) (c : Cursor) : Cursor := c.advanceBy (c.ahead.emptyLinesLength + level)

theorem ahead_toCode (level : Nat) (c : Cursor) :
    (c.toCode level).ahead = c.ahead.nextCode.drop level := by
  rw [toCode, ahead_advanceBy, ← List.drop_drop]
  rfl

/-- Where the next line of code stays the same, so does the place. -/
theorem Reaches.toCode_eq (h : c.Reaches a) (hcode : a.ahead.nextCode = c.ahead.nextCode) :
    a.toCode level = c.toCode level := by
  refine (h.trans (a.reaches_advanceBy _)).eq_of_ahead_eq (c.reaches_advanceBy _) ?_
  show (a.toCode level).ahead = (c.toCode level).ahead
  rw [ahead_toCode, ahead_toCode, hcode]

/-- So it does for a cursor, and leads to the code of this line. -/
theorem read_seekLine (h : c.ahead.HasNext level) :
    c.read (Statement.seekLine level) = .ok (true, c.toCode level) := by
  rw [read_eq_of_took h.seekLine_eq]
  congr 2
  refine (c.reaches_advanceBy _).eq_of_ahead_eq (c.reaches_advanceBy _) ?_
  show (c.advanceBy _).ahead = (c.toCode level).ahead
  rw [ahead_toCode, ahead_advanceBy, ← List.drop_drop, Text.drop_codeDistance]

end Cursor

/-! ### The lines before the code -/

namespace Script

variable {room level : Nat} {required : Bool} {c d : Cursor} {lines : Block} {l : Line}
  {scope : Scope} {journal : Journal}

/-- What a comment is read as does not depend on anything but the cursor. -/
theorem exists_run_commentLine (c : Cursor) : ∃ l d, l.isComment = true ∧
    ∀ room scope journal, Grammar.run room commentLine scope c journal = .finished l d journal := by
  have htook : ∀ t : Text, ∃ text n, Reader.comment t = .took text n := by
    intro t
    unfold Reader.comment
    split <;> exact ⟨_, _, rfl⟩
  obtain ⟨start, hstart⟩ : ∃ start, start = c.advanceBy c.ahead.gapLength := ⟨_, rfl⟩
  obtain ⟨text, n, hread⟩ := htook start.ahead
  refine ⟨.comment (text.getD []) ⟨start.location, (start.advanceBy n).location⟩,
    start.advanceBy n, rfl, fun room scope journal => ?_⟩
  unfold commentLine
  simp only [run_bind, Parser.bind, skipSpaces, run_read, Parser.read, Cursor.read, Reader.skipSpaces,
    Reader.skip, ← hstart, run_here, Parser.here, hread, run_pure, Parser.pure]

/-- A turn of a block that finds a comment. -/
theorem run_blockTurn_of_comment (hkind : lineKind level (passOver level c).ahead = .comment)
    (hl : Grammar.run room commentLine scope (passOver level c) journal = .finished l d journal) :
    Grammar.run room (blockTurn level required lines) scope c journal
      = .finished (.again (l :: lines)) d journal := by
  rw [passOver] at hkind hl
  unfold blockTurn blockLine Grammar.optional
  simp only [run_bind, Parser.bind, run_rewindIf, Parser.rewindIf, run_read, Parser.read, Cursor.read,
    Reader.skip, look, Reader.look, Cursor.advanceBy_zero, hkind, hl, run_pure, Parser.pure]
  rfl

/-- A turn of a block that has to take the line of code that it finds. -/
theorem run_blockTurn_of_code (hkind : lineKind level (passOver level c).ahead = .code)
    (hall : lines.all Line.isComment = true) :
    Grammar.run room (blockTurn level true lines) scope c journal
      = Grammar.run room (call (Rule.line level) >>= fun items =>
          Pure.pure (.again (items.reverse ++ lines))) scope ((passOver level c).advanceBy level)
          journal := by
  rw [passOver] at hkind ⊢
  unfold blockTurn blockLine Grammar.optional
  simp only [run_bind, Parser.bind, run_rewindIf, Parser.rewindIf, run_read, Parser.read, Cursor.read,
    Reader.skip, look, Reader.look, Cursor.advanceBy_zero, hkind, hall, Bool.and_self, if_true]
  cases Grammar.run room (call (Rule.line level)) scope _ journal with
  | finished items d journal => simp only [run_pure, Parser.pure]; rfl
  | failed failure journal => rfl

/-- Where code comes next, the next line of a block is a comment before it, or the code. -/
theorem lineKind_passOver (h : c.ahead.HasNext level) :
    (lineKind level (passOver level c).ahead = .comment ∧
      (passOver level c).ahead.isCommentLine = true) ∨
    (lineKind level (passOver level c).ahead = .code ∧
      (passOver level c).advanceBy level = c.toCode level) := by
  have hnext := nextCode_passOver level c
  have hline := lineAt_passOver level c
  generalize lineKind level (passOver level c).ahead = kind at hline ⊢
  generalize ht : (passOver level c).ahead = t at hline hnext ⊢
  cases hline with
  -- the next code line is ahead, so the text does not end here
  | ended => exact absurd hnext.symm h.ne_nil
  | comment hcomment _ => exact .inl ⟨rfl, hcomment⟩
  | code hempty _ =>
    refine .inr ⟨rfl, ?_⟩
    refine ((reaches_passOver level c).trans (Cursor.reaches_advanceBy _ level)).eq_of_ahead_eq
      (c.reaches_advanceBy _) ?_
    show _ = (c.toCode level).ahead
    rw [Cursor.ahead_advanceBy, Cursor.ahead_toCode, ht, ← hnext,
      Text.nextCode_of_isEmptyLine_eq_false hempty]
  | misplaced hempty hwidth =>
    rw [Text.nextCode_of_isEmptyLine_eq_false hempty] at hnext
    exact absurd (hnext ▸ h.indentation_eq) hwidth

/-- Behind a comment the next line of code is still the same. -/
theorem exists_run_blockTurn_of_comment (h : c.ahead.HasNext level)
    (hkind : lineKind level (passOver level c).ahead = .comment)
    (hcomment : (passOver level c).ahead.isCommentLine = true) : ∃ l d, l.isComment = true ∧
      (∀ room required lines scope journal,
        Grammar.run room (blockTurn level required lines) scope c journal
          = .finished (.again (l :: lines)) d journal) ∧
      d.ahead.length < c.ahead.length ∧ d.ahead.HasNext level ∧ d.toCode level = c.toCode level := by
  obtain ⟨l, d, hl, hrun⟩ := exists_run_commentLine (passOver level c)
  have hrun₀ := hrun 0 ⟨[], 0, 0⟩ []
  have hover := reaches_passOver level c
  -- the turn took one comment, and the code it leads to is the same as before
  have hreach := hover.trans (yields_reaches 0 _ _ _ _ _ _ _ hrun₀)
  have hcode : d.ahead.nextCode = c.ahead.nextCode :=
    (yields_commentLine_atLineEnd hcomment _ _ _ _ _ hrun₀).2.trans (nextCode_passOver level c)
  refine ⟨l, d, hl, fun room required lines scope journal =>
    run_blockTurn_of_comment hkind (hrun room scope journal), ?_, ?_, hreach.toCode_eq hcode⟩
  · exact Nat.lt_of_lt_of_le (yields_commentLine_lt 0 hcomment _ _ _ _ _ hrun₀) hover.length_le
  · exact ⟨hcode ▸ h.ne_nil, hcode ▸ h.indentation_eq⟩

/--
A block takes comments until it comes to the next line of code, and then goes on with this line, in the
scope and with the journal that it started with.
-/
theorem exists_run_blockTurns (h : c.ahead.HasNext level) : ∃ comments : Block,
    comments.all Line.isComment = true ∧ ∀ lines : Block, lines.all Line.isComment = true →
      ∀ room scope journal, Grammar.run room (iterate (blockTurn level true) lines) scope c journal
        = Grammar.run room (call (Rule.line level) >>= fun items =>
            iterate (blockTurn level true) (items.reverse ++ (comments ++ lines))) scope
            (c.toCode level) journal := by
  -- a comment that is taken leaves less ahead, so the code is reached in the end
  induction hlength : c.ahead.length using Nat.strongRecOn generalizing c with
  | _ n ih =>
    rcases lineKind_passOver h with ⟨hkind, hcomment⟩ | ⟨hkind, hcode⟩
    · obtain ⟨l, d, hl, hturn, hlt, hnext, hcode⟩ := exists_run_blockTurn_of_comment h hkind hcomment
      obtain ⟨comments, hcomments, hblock⟩ := ih _ (hlength ▸ hlt) hnext rfl
      refine ⟨comments ++ [l], by rw [List.all_append, hcomments, List.all_cons, hl]; rfl, ?_⟩
      intro lines hall room scope journal
      have hall' : List.all (l :: lines) Line.isComment = true := by rw [List.all_cons, hl, hall]; rfl
      rw [run_iterate_eq_run_follow (turnsAdvance_blockTurn room level true),
        run_bind_of_finished (hturn room true lines scope journal), follow, hblock _ hall', hcode]
      simp only [List.append_assoc, List.singleton_append]
    · refine ⟨[], rfl, fun lines hall room scope journal => ?_⟩
      rw [run_iterate_eq_run_follow (turnsAdvance_blockTurn room level true), run_bind, Parser.bind,
        run_blockTurn_of_code hkind hall, hcode, run_bind, run_bind, Parser.bind, Parser.bind]
      cases Grammar.run room (call (Rule.line level)) scope (c.toCode level) journal with
      | finished items d journal => simp only [run_pure, Parser.pure]; rfl
      | failed failure journal => rfl

/-! ### The lines behind -/

/-- There are items, and none of them is a comment. -/
structure IsCode (items : List Line) : Prop where
  ne_nil : items ≠ []
  isComment_eq : ∀ l ∈ items, l.isComment = false

theorem finds_lineItem_isCode (indent : Nat) :
    Finds room (lineItem indent) fun l => l.isComment = false := by
  rw [lineItem_eq]
  refine Finds.after fun start => finds_choice fun g hg => ?_
  simp only [List.mem_cons, List.not_mem_nil, or_false] at hg
  rcases hg with rfl | rfl | rfl
  all_goals exact Finds.after fun _ => Finds.after fun _ => finds_pure rfl

/-- A line of code is read as items of code. -/
theorem finds_line_isCode (indent : Nat) : Finds room (line indent) IsCode := by
  -- an item of a line is never a comment, and a turn adds items only
  have hturn : ∀ items, IsCode items →
      Finds room (lineTurn indent items) fun next => IsCode next.state := by
    intro items hitems
    refine Finds.after fun _ => Finds.after fun _ => Finds.after fun ended => ?_
    split
    · exact finds_pure hitems
    refine Finds.after fun semicolon => ?_
    split
    · refine Finds.after fun _ => Finds.after fun idle => ?_
      split
      · exact finds_pure hitems
      · refine (finds_lineItem_isCode indent).bind fun item hitem => finds_pure ?_
        exact ⟨List.cons_ne_nil _ _, List.forall_mem_cons.mpr ⟨hitem, hitems.isComment_eq⟩⟩
    · exact finds_expected
  rw [line_eq]
  refine (finds_lineItem_isCode indent).bind fun first hfirst => ?_
  refine (Finds.iterate ⟨List.cons_ne_nil _ _, List.forall_mem_singleton.mpr hfirst⟩ hturn).bind ?_
  intro items hitems
  apply finds_pure
  constructor
  · rw [ne_eq, List.reverse_eq_nil_iff]
    exact hitems.ne_nil
  · exact fun l hl => hitems.isComment_eq l (List.mem_reverse.mp hl)

/-- Once it has a line of code, a block keeps its lines, and only the depth limit makes it fail. -/
theorem leads_blockTurns (level : Nat) (hlines : lines.all Line.isComment = false) (c : Cursor)
    (journal : Journal) : Leads room (iterate (blockTurn level true) lines) c journal
      (fun found _ _ => lines <:+ found)
      fun failure _ => ∃ e, failure = .parse e ∧ e.code = .nestingTooDeep := by
  have hline : FailsRegularly room (call (Rule.line level)) := Rule.failsRegularly room _ trivial
  refine Leads.loop (I := fun found _ _ => lines <:+ found) List.suffix_rfl (fun _ _ _ h => h) ?_
  rintro found c' journal' ⟨more, rfl⟩
  have hall : List.all (more ++ lines) Line.isComment = false := by
    rw [List.all_append, hlines, Bool.and_false]
  refine Leads.bind (Q := fun _ _ _ => True) ?_ fun next c'' journal'' _ => ?_
  · rw [hall, Bool.and_false]
    refine leads_blockLine (fun _ => trivial) (fun _ => leads_commentLine fun _ _ => trivial)
      (fun _ _ _ => trivial) (fun hrequired => Bool.noConfusion hrequired) fun _ _ _ => ?_
    -- a line that does not parse is given up, unless it is nested too deeply
    exact (hline _ journal').attempt (fun _ _ _ _ => trivial)
      fun _ _ hfinal hregular => hregular.exists_of_recoverable?_eq_none hfinal
  · cases next with
    | none => exact leads_pure ⟨more, rfl⟩
    | some items => exact leads_pure ⟨items.reverse ++ more, List.append_assoc _ _ _⟩

/-- The scope of the lines of a block that is read from the cursor. -/
def inBlock (level : Nat) (c : Cursor) (scope : Scope) : Scope :=
  { scope with frames := ⟨(Rule.block level true).label, c.location⟩ :: scope.frames }

/--
How a block ends that is read from `c`, in a scope and with a journal, when `code` is where its first
line of code starts.
-/
inductive Opens (level : Nat) (c code : Cursor) (scope : Scope) (journal : Journal) :
    (room : Nat) → Outcome Block → Prop where
  /-- There is no room for the block. -/
  | noRoom {e : ParseError} {journal' : Journal} (he : e.code = .nestingTooDeep) :
      Opens level c code scope journal 0 (.failed (.parse e) journal')
  /-- The line fails, and so does the block. -/
  | badLine {room : Nat} {failure : Failure} {journal' : Journal}
      (h : Grammar.run room (call (Rule.line level)) (inBlock level c scope) code journal
        = .failed failure journal') :
      Opens level c code scope journal (room + 1) (.failed failure journal')
  /-- The line is read, and rules are nested too deeply behind it. -/
  | tooDeep {room : Nat} {items : List Line} {d : Cursor} {e : ParseError} {j journal' : Journal}
      (h : Grammar.run room (call (Rule.line level)) (inBlock level c scope) code journal
        = .finished items d j) (he : e.code = .nestingTooDeep) :
      Opens level c code scope journal (room + 1) (.failed (.parse e) journal')
  /-- The line is read, and stands in the block behind comments. -/
  | found {room : Nat} {items : List Line} {comments more : Block} {d c' : Cursor}
      {j journal' : Journal}
      (h : Grammar.run room (call (Rule.line level)) (inBlock level c scope) code journal
        = .finished items d j) (hitems : IsCode items)
      (hcomments : comments.all Line.isComment = true) :
      Opens level c code scope journal (room + 1) (.finished (comments ++ items ++ more) c' journal')

/-- A block whose level is that of the next line of code goes on with this line behind comments. -/
theorem exists_run_block (h : c.ahead.HasNext level) : ∃ comments : Block,
    comments.all Line.isComment = true ∧ ∀ room scope journal,
      Grammar.run room (block level true) scope c journal = Grammar.run room (do
        let items ← call (Rule.line level)
        let lines ← iterate (blockTurn level true) (items.reverse ++ comments)
        return lines.reverse) scope (c.toCode level) journal := by
  obtain ⟨comments, hcomments, hblock⟩ := exists_run_blockTurns h
  refine ⟨comments, hcomments, fun room scope journal => ?_⟩
  rw [block_eq, ← run_bind_assoc, run_bind, run_bind, Parser.bind, Parser.bind, hblock [] rfl,
    List.append_nil]

/-- So it opens with this line. -/
theorem opens_block (h : c.ahead.HasNext level) (room : Nat) (scope : Scope) (journal : Journal) :
    Opens level c (c.toCode level) scope journal room
      (Grammar.run room (call (Rule.block level true)) scope c journal) := by
  cases room with
  -- no room for the line: it exceeds the limit at once
  | zero => exact .noRoom rfl
  | succ room =>
    obtain ⟨comments, hcomments, hblock⟩ := exists_run_block h
    have hrun : Grammar.run (room + 1) (call (Rule.block level true)) scope c journal = _ :=
      hblock room (inBlock level c scope) journal
    rw [hrun]
    cases hline : Grammar.run room (call (Rule.line level)) (inBlock level c scope) (c.toCode level)
      journal with
    | failed failure journal' =>
      rw [run_bind_of_failed hline]
      exact .badLine hline
    | finished items d j =>
      have hitems : IsCode items :=
        yields_call (fun room => finds_line_isCode level _) _ _ _ _ _ hline
      -- a code line is found, so a later misplaced line ends the block and no error follows
      have hlines : List.all (items.reverse ++ comments) Line.isComment = false := by
        obtain ⟨l, hl⟩ := List.exists_mem_of_ne_nil items hitems.ne_nil
        rw [List.all_eq_false]
        refine ⟨l, List.mem_append_left _ (List.mem_reverse.mpr hl), ?_⟩
        rw [hitems.isComment_eq l hl]
        decide
      have hends : (Grammar.run room (iterate (blockTurn level true) (items.reverse ++ comments))
          (inBlock level c scope) d j).Meets _ _ := leads_blockTurns level hlines d j _
      rw [run_bind_of_finished hline]
      cases hrest : Grammar.run room (iterate (blockTurn level true) (items.reverse ++ comments))
        (inBlock level c scope) d j with
      | failed failure j' =>
        rw [hrest] at hends
        obtain ⟨e, rfl, he⟩ := hends
        rw [run_bind_of_failed hrest]
        exact .tooDeep hline he
      | finished lines c' j' =>
        rw [hrest] at hends
        obtain ⟨more, rfl⟩ := hends
        rw [run_bind_of_finished hrest, run_pure, Parser.pure, List.reverse_append,
          List.reverse_append, List.reverse_reverse]
        refine .found hline hitems ?_
        rw [List.all_reverse, hcomments]

end Script

end GDScript
