import GDScript.Grammar.Language
import GDScript.Proofs.Leading
import GDScript.Proofs.Lexeme.Comment
import GDScript.Proofs.Lexeme.Line

/-!
# The loops of a script

The items of a line, the lines of a block, the branches of an `if` and the cases of a `match` are
read by loops; here the turns of these loops have names. A line ends where the text of the line does
(`Script.yields_line_atLineEnd`), and `Script.leads_blockLine` lists all that the next line of a block can be:
there is none, it is a comment, it is code at another indentation, or code of the block.
-/

namespace GDScript

open Grammar

namespace Cursor

variable {c c' : Cursor}

theorem Reaches.length_le (h : c.Reaches c') : c'.ahead.length ≤ c.ahead.length := by
  obtain ⟨k, -, rfl⟩ := h
  rw [ahead_advanceBy, List.length_drop]
  exact Nat.sub_le _ _

end Cursor

/-- A line that holds only a comment, and its end. -/
theorem Text.exists_of_isCommentLine {t : Text} (h : t.isCommentLine = true) :
    ∃ gap body rest : Text, t = gap ++ CodeUnit.hash :: (body ++ rest) ∧
      (∀ u ∈ gap, u.isSpace = true) ∧ (∀ u ∈ body, u.isLineEnd = false) ∧
      rest.atLineEnd = true := by
  rw [isCommentLine, beq_iff_eq] at h
  obtain ⟨t', ht'⟩ := List.head?_eq_some_iff.mp h
  refine ⟨t.takeWhile CodeUnit.isSpace, t'.takeWhile (!CodeUnit.isLineEnd ·),
    t'.dropWhile (!CodeUnit.isLineEnd ·), ?_, takeWhile_pos, ?_,
    atLineEnd_of_avoids (avoids_dropWhile _ t')⟩
  · rw [List.takeWhile_append_dropWhile, ← ht', List.takeWhile_append_dropWhile]
  · exact fun u hu => by simpa using takeWhile_pos u hu

/-! ### Turns -/

namespace Script

/-- What is found, with the places where it starts and ends. -/
def spanned {α : Type} (g : Grammar Rule α) (item : α → Span → Line) (start : Location) :
    Grammar Rule Line := do
  let found ← g
  let stop ← here
  return item found ⟨start, stop⟩

theorem lineItem_eq (indent : Nat) : lineItem indent = (do
    let start ← here
    choice [spanned (call (.decl indent)) .decl start, spanned (call (.stmt indent)) .stmt start,
      spanned Expression.expr .expr start]) := rfl

/-- What stands behind a semicolon and the gap after it. -/
def nextItem (indent : Nat) (items : List Line) : Grammar Rule (Next (List Line)) := do
  if ← look fun t => t.atLineEnd || List.isPrefixOf "#" t then return .again items
  else
    let item ← lineItem indent
    return .again (item :: items)

/-- The turn of the items of a line. -/
def lineTurn (indent : Nat) (items : List Line) : Grammar Rule (Next (List Line)) := do
  skipSpaces
  let _ ← read Reader.comment
  if ← read Reader.atLineEnd then return .done items
  else if ← consume ";" then
    skipSpaces
    nextItem indent items
  else expected "end of line"

theorem line_eq (indent : Nat) : line indent = (do
    let first ← lineItem indent
    let items ← iterate (lineTurn indent) [first]
    return items.reverse) := rfl

/-- The turn of the lines of a block. -/
def blockTurn (level : Nat) (required : Bool) (lines : Block) : Grammar Rule (Next Block) := do
  match ← blockLine level (required && lines.all Line.isComment) with
  | some found => return .again (found.reverse ++ lines)
  | none => return .done lines

theorem block_eq (level : Nat) (required : Bool) : block level required = (do
    let lines ← iterate (blockTurn level required) []
    return lines.reverse) := rfl

end Script

namespace Statement

/-- The turn of the branches that `elif` opens. -/
def elifTurn (indent : Nat) (found : List Condition) : Grammar Rule (Next (List Condition)) := do
  match ← elifBranch indent with
  | some branch => return .again (branch :: found)
  | none => return .done found

theorem ifStmt_eq (indent : Nat) : ifStmt indent = (do
    expectKeyword "if"
    let branch ← call (.condition indent)
    let elifs ← iterate (elifTurn indent) []
    let otherwise ← elseBranch indent
    return .ifStmt branch elifs.reverse otherwise) := rfl

/-- The turn of the cases of a match. -/
def caseTurn (width : Nat) (found : List Condition) : Grammar Rule (Next (List Condition)) := do
  if ← read (seekLine width) then
    let branch ← call (.matchCase width)
    return .again (branch :: found)
  else return .done found

theorem matchStmt_eq (indent : Nat) : matchStmt indent = (do
    expectKeyword "match"
    skipSpaces
    let subject ← Expression.expr
    skipSpaces
    expect ":"
    let width ← blockOpening indent
    let cases ← iterate (caseTurn width) []
    if cases.isEmpty then expected "match case" else return .matchStmt subject cases.reverse) := rfl

end Statement

namespace Script

variable {room level : Nat} {required : Bool} {c : Cursor} {journal : Journal}
  {E : Failure → Journal → Prop}

/-! ### The end of a line -/

/-- Every turn that asks for another one has taken a semicolon. -/
theorem yields_lineTurn (indent : Nat) (items : List Line) (c : Cursor) :
    Yields room (lineTurn indent items) c fun next c' =>
      match next with
      | .again _ => c'.ahead.length < c.ahead.length
      | .done _ => c'.ahead.atLineEnd = true := by
  refine (yields_reaches room _ c).bind fun _ c₁ h₁ => ?_
  refine (yields_reaches room _ c₁).bind fun _ c₂ h₂ => ?_
  refine yields_look_bind ?_
  split
  · -- the line has ended, so no item is added
    next hended => exact yields_pure hended
  · refine Yields.bind (P := fun found c' => found = true → c'.ahead.length < c.ahead.length) ?_
      fun found c₃ hsemicolon => ?_
    · refine yields_read fun found n hread hfound => ?_
      unfold Reader.consume Reader.takeIf at hread
      split_ifs at hread with hprefix
      · -- the semicolon is a unit that is taken, and nothing behind it gives a unit back
        cases hread
        have hle := (List.isPrefixOf_iff_prefix.mp hprefix).length_le
        have hone : (";" : Text).length = 1 := rfl
        have hlength := (h₁.trans h₂).length_le
        rw [Cursor.ahead_advanceBy, List.length_drop]
        omega
      · cases hread
        exact absurd hfound (by decide)
    · split
      · next hfound =>
        refine (yields_reaches room _ c₃).bind fun _ c₄ h₄ => ?_
        have hless := Nat.lt_of_le_of_lt h₄.length_le (hsemicolon hfound)
        refine yields_look_bind ?_
        split
        · exact yields_pure hless
        · exact (yields_reaches room _ _).bind fun item c₅ h₅ =>
            yields_pure (Nat.lt_of_le_of_lt h₅.length_le hless)
      · exact yields_expected

/-- A line is read up to its end. -/
theorem yields_line_atLineEnd (indent : Nat) (c : Cursor) :
    Yields room (line indent) c fun _ c' => c'.ahead.atLineEnd = true := by
  rw [line_eq]
  refine (yields_reaches room _ c).bind fun first c₁ _ => ?_
  refine Yields.bind (P := fun _ c' => c'.ahead.atLineEnd = true)
    (Yields.loop_of_progress fun items c' => ?_) fun _ _ h => yields_pure h
  refine (yields_lineTurn indent items c').mono fun next c'' hnext => ?_
  cases next <;> exact hnext

/-- A comment is read up to its end as well, and what the next line of code is stays. -/
theorem yields_commentLine_atLineEnd (h : c.ahead.isCommentLine = true) :
    Yields room commentLine c fun _ c' =>
      c'.ahead.atLineEnd = true ∧ c'.ahead.nextCode = c.ahead.nextCode := by
  obtain ⟨gap, body, rest, hahead, hgap, hbody, hrest⟩ := Text.exists_of_isCommentLine h
  have hempty : c.ahead.isEmptyLine = true := by rw [Text.isEmptyLine, h, Bool.or_true]
  -- the comment is on a line that is dropped, so the search for code may start behind it
  have hnext : c.ahead.nextCode = rest.nextCode := by
    have hsplit : c.ahead = (gap ++ CodeUnit.hash :: body) ++ rest := by simp [hahead]
    rw [hsplit] at hempty ⊢
    refine Text.nextCode_append hempty (fun u hu => ?_) (Text.isEmptyLine_of_atLineEnd hrest)
    simp only [List.mem_append, List.mem_cons] at hu
    rcases hu with hu | rfl | hu
    · exact Text.ne_lineFeed_of_isLineEnd (Text.isLineEnd_eq_false_of_isSpace (hgap u hu))
    · decide
    · exact Text.ne_lineFeed_of_isLineEnd (hbody u hu)
  have hspaces : c.ahead.gapLength = gap.length := by
    rw [hahead, Text.gapLength, Text.takeWhile_append hgap (Text.avoids_cons.mpr rfl)]
  refine Yields.bind (P := fun _ c' => c'.ahead = CodeUnit.hash :: (body ++ rest))
    (yields_read fun _ n hread => ?_) fun _ c₁ h₁ => ?_
  · cases hread
    rw [Cursor.ahead_advanceBy, hspaces, hahead, List.drop_left]
  refine yields_here_bind (Yields.bind (P := fun _ c' => c'.ahead = rest)
    (yields_read fun _ n hread => ?_) fun text c₂ h₂ => ?_)
  · rw [h₁, Reader.comment, Text.comment?_append hbody (Text.avoids_of_atLineEnd hrest)] at hread
    cases hread
    rw [Cursor.ahead_advanceBy, h₁]
    simp
  refine yields_here_bind (yields_pure ⟨?_, ?_⟩)
  · rw [h₂, hrest]
  · rw [h₂, hnext]

/-! ### The next line of a block -/

theorem isPassedOver_of_isBlankLine {t : Text} (h : t.isBlankLine = true) :
    isPassedOver level t = true := by
  rw [isPassedOver, h, Bool.true_or]

theorem isEmptyLine_of_isPassedOver {t : Text} (h : isPassedOver level t = true) :
    t.isEmptyLine = true := by
  rw [isPassedOver, Bool.or_eq_true, Bool.and_eq_true] at h
  rw [Text.isEmptyLine, Bool.or_eq_true]
  exact h.imp_right And.left

/-- The cursor behind the lines that a block passes over. -/
def passOver (level : Nat) (c : Cursor) : Cursor :=
  c.advanceBy (c.ahead.droppedLength (isPassedOver level) false)

theorem reaches_passOver (level : Nat) (c : Cursor) : c.Reaches (passOver level c) :=
  c.reaches_advanceBy _

theorem ahead_passOver_of_eq_nil (h : c.ahead = []) : (passOver level c).ahead = [] := by
  rw [passOver, Cursor.ahead_advanceBy, h, List.drop_nil]

theorem nextCode_passOver (level : Nat) (c : Cursor) :
    (passOver level c).ahead.nextCode = c.ahead.nextCode := by
  rw [passOver, Cursor.ahead_advanceBy]
  exact Text.nextCode_drop (fun _ => isEmptyLine_of_isPassedOver) c.ahead

/-- From the end of a line on, a block passes over the line break at least. -/
theorem length_passOver_lt (h : c.ahead.atLineEnd = true) (hne : c.ahead ≠ []) :
    (passOver level c).ahead.length < c.ahead.length := by
  rw [passOver, Cursor.ahead_advanceBy]
  have hpassed : isPassedOver level c.ahead = true :=
    isPassedOver_of_isBlankLine (Text.isBlankLine_of_atLineEnd h)
  cases ht : c.ahead with
  | nil => exact absurd ht hne
  | cons u t =>
    rw [ht] at hpassed
    rw [Text.droppedLength, hpassed, Bool.or_true, if_pos rfl, List.drop_succ_cons, List.length_drop,
      List.length_cons]
    omega

/-- The line that a block finds behind those it passes over. -/
inductive LineAt (level : Nat) : LineKind → Text → Prop where
  | ended : LineAt level .ended []
  | comment {t : Text} (h : t.isCommentLine = true) (hwidth : t.indentation = level) :
      LineAt level .comment t
  | code {t : Text} (h : t.isEmptyLine = false) (hwidth : t.indentation = level) :
      LineAt level .code t
  | misplaced {t : Text} (h : t.isEmptyLine = false) (hwidth : t.indentation ≠ level) :
      LineAt level .misplaced t

theorem lineAt_passOver (level : Nat) (c : Cursor) :
    LineAt level (lineKind level (passOver level c).ahead) (passOver level c).ahead := by
  have hkept := Text.droppable_drop_eq_false (isPassedOver level) false c.ahead
  rw [← Cursor.ahead_advanceBy] at hkept
  change (passOver level c).ahead = [] ∨ isPassedOver level (passOver level c).ahead = false at hkept
  generalize (passOver level c).ahead = t at hkept
  rcases hkept with rfl | hkept
  · exact .ended
  · -- the line was not passed over, so it is not blank, nor a comment at another indentation
    rw [isPassedOver, Bool.or_eq_false_iff, Bool.and_eq_false_iff] at hkept
    obtain ⟨hblank, hwidth⟩ := hkept
    unfold lineKind
    split_ifs with hnil hcomment hindent
    · rw [List.isEmpty_iff.mp hnil] at hblank
      exact absurd hblank (by decide)
    · have hlevel := hwidth.resolve_left (by rw [hcomment]; decide)
      exact .comment hcomment (by simpa using hlevel)
    · refine .code ?_ (beq_iff_eq.mp hindent)
      rw [Text.isEmptyLine, hblank, Bool.false_or]
      exact Bool.eq_false_iff.mpr hcomment
    · refine .misplaced ?_ fun h => hindent (beq_iff_eq.mpr h)
      rw [Text.isEmptyLine, hblank, Bool.false_or]
      exact Bool.eq_false_iff.mpr hcomment

/-- What the next line of a block leads to, whatever it is. -/
theorem leads_blockLine {Q : Option (List Line) → Cursor → Journal → Prop}
    (hended : (passOver level c).ahead = [] → Q none c journal)
    (hcomment : (passOver level c).ahead.isCommentLine = true →
      Leads room commentLine (passOver level c) journal (fun l => Q (some [l])) E)
    (hmisplaced : (passOver level c).ahead.isEmptyLine = false →
      (passOver level c).ahead.indentation ≠ level → ∀ scope,
        let complaint := Complaint.indentation "of" level (passOver level c).ahead 0
        let place := ((passOver level c).advanceBy complaint.distance).location
        Q none c (.noted (complaint.error place scope) :: journal))
    (hrequired : required = true → (passOver level c).ahead.isEmptyLine = false →
      (passOver level c).ahead.indentation = level →
        Leads room (call (Rule.line level)) ((passOver level c).advanceBy level) journal
          (fun items => Q (some items)) E)
    (hattempt : required = false → (passOver level c).ahead.isEmptyLine = false →
      (passOver level c).ahead.indentation = level →
        Leads room (attempt (call (Rule.line level))) ((passOver level c).advanceBy level) journal
          (fun found c' => Q found (if found.isNone then c else c')) E) :
    Leads room (blockLine level required) c journal Q E := by
  refine Leads.optional (leads_skip_bind (leads_look_bind ?_))
  rw [← passOver]
  -- the kind of the line decides which branch is taken, and the line which one is of the kind
  have hline := lineAt_passOver level c
  generalize lineKind level (passOver level c).ahead = kind at hline ⊢
  generalize ht : (passOver level c).ahead = t at hline
  cases hline with
  | ended => exact leads_pure (hended ht)
  | comment h _ =>
    rw [← ht] at h
    exact (hcomment h).bind fun l c' journal' hl => leads_pure hl
  | misplaced h hwidth =>
    rw [← ht] at h hwidth
    refine Leads.bind (Q := fun _ _ journal' => Q none c journal')
      (leads_note fun scope => hmisplaced h hwidth scope) fun _ _ _ hnone => leads_pure hnone
  | code h hwidth =>
    rw [← ht] at h hwidth
    refine leads_skip_bind ?_
    split
    · next hreq =>
      exact (hrequired hreq h hwidth).bind fun items c' journal' hitems => leads_pure hitems
    · next hreq => exact hattempt (Bool.eq_false_iff.mpr hreq) h hwidth

/-- A comment is read without fail. -/
theorem leads_commentLine {Q : Line → Cursor → Journal → Prop}
    (h : ∀ l c', Q l c' journal) : Leads room commentLine c journal Q E := by
  have hfault : ∀ t complaint, Reader.comment t ≠ .fault complaint := by
    intro t complaint
    rw [Reader.comment]
    split <;> simp
  refine leads_skip_bind (Leads.bind (Q := fun _ _ journal' => journal' = journal)
    (leads_here rfl) ?_)
  rintro start c₁ journal rfl
  refine Leads.bind (Q := fun _ _ journal' => journal' = journal)
    (leads_read (fun _ _ _ => rfl) fun complaint _ hread => absurd hread (hfault _ complaint)) ?_
  rintro text c₂ journal rfl
  refine Leads.bind (Q := fun _ _ journal' => journal' = journal) (leads_here rfl) ?_
  rintro stop c₃ journal rfl
  exact leads_pure (h _ _)

/-- What is found is read up to the end of its line, behind what the block passes over. -/
theorem yields_blockLine_atLineEnd (level : Nat) (required : Bool) (c : Cursor) :
    Yields room (blockLine level required) c fun found c' =>
      match found with
      | none => c' = c
      | some _ => c'.ahead.atLineEnd = true ∧ (passOver level c).Reaches c' ∧ c.ahead ≠ [] := by
  have hline : (passOver level c).ahead.isEmptyLine = false → Yields room (call (Rule.line level))
      ((passOver level c).advanceBy level) fun _ c' => c'.ahead.atLineEnd = true ∧
        (passOver level c).Reaches c' ∧ c.ahead ≠ [] := by
    intro h
    refine (yields_call fun room => (yields_line_atLineEnd level _).and (yields_reaches room _ _)).mono ?_
    -- where nothing is ahead, nothing is left behind the lines that are passed over either
    refine fun _ _ hfound => ⟨hfound.1, ((passOver level c).reaches_advanceBy level).trans hfound.2,
      fun hnil => ?_⟩
    rw [ahead_passOver_of_eq_nil hnil] at h
    exact absurd h (by decide)
  refine yields_of_leads fun journal => leads_blockLine (fun _ => rfl) (fun h => ?_)
    (fun _ _ _ => rfl) (fun _ h _ => leads_of_yields (hline h)) fun _ h _ =>
      leads_of_yields (Yields.attempt ((hline h).mono fun _ _ hfound => hfound) rfl)
  refine leads_of_yields (((yields_commentLine_atLineEnd h).and (yields_reaches room _ _)).mono ?_)
  refine fun _ _ hfound => ⟨hfound.1.1, hfound.2, fun hnil => ?_⟩
  rw [ahead_passOver_of_eq_nil hnil] at h
  exact absurd h (by decide)

/-! ### Scripts that are read -/

/-- What every run over a text finds, the block is that the text is read as. -/
theorem exists_found_of_parse {source : Text} {depth : Option Int} {block : Block}
    {P : Block → Cursor → Prop} (h : parse source depth = .ok block)
    (hyields : ∀ room, Yields room (call Rule.file) (Cursor.ofText source) P) : ∃ c, P block c := by
  unfold parse run start at h
  split at h
  · next found c journal hrun =>
    obtain rfl := Except.ok.inj h
    exact ⟨c, hyields _ _ _ _ _ _ hrun⟩
  · cases h

end Script

end GDScript
