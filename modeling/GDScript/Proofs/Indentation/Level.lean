import GDScript.Proofs.Between.Spaced
import GDScript.Proofs.Report.Telling
import GDScript.Proofs.Script.Lines

/-!
# The levels of blocks

`Block.IsIndented source level block` says that the lines of a block stand at a level in the text:
each item of it starts behind exactly `level` spaces at the start of a line, or behind a semicolon.
The blocks in it have levels of their own, which are read off the text. A block is governed by a
header, which ends with a colon (`Text.IsHeader`), and its level is the indentation of the first line
of code behind that line (`Text.OpensNext`); it is greater than that of the header.

The branches of an `if` follow one another at the level of the `if`, and the cases of a `match` at a
common width, which is greater than the level of the `match`: `Continued` follows them along the text.
-/

namespace GDScript

namespace Text

/-! ### Where items start -/

/-- Exactly `width` spaces stand between the start of a line and the place. -/
def OpensLine (source : Text) (width place : Nat) : Prop :=
  ∃ before : Text, before.IsLines ∧ source.take place = before ++ spaces width

/-- A semicolon stands before the place, with spaces and tabs in between. -/
def FollowsSemicolon (source : Text) (place : Nat) : Prop :=
  ∃ before gap : Text, IsGap false gap ∧ source.take place = before ++ ";" ++ gap

/-- An item of a block of the level may start here. -/
def BeginsItem (source : Text) (level place : Nat) : Prop :=
  source.OpensLine level place ∨ source.FollowsSemicolon place

/-! ### The line behind -/

/-- What is left of a text behind its first line, from the line feed on. -/
def behindLine (t : Text) : Text := t.dropWhile (· != CodeUnit.lineFeed)

/-- The text from the first line of code on, behind the line that the place is on. -/
def codeBehind (source : Text) (place : Nat) : Text := nextCode (behindLine (source.drop place))

/--
The first line of code behind the line of `place` is indented by `width`, and `start` is where its
code starts.
-/
structure OpensNext (source : Text) (place width start : Nat) : Prop where
  code_ne_nil : source.codeBehind place ≠ []
  indentation_eq : (source.codeBehind place).indentation = width
  drop_start : source.drop start = (source.codeBehind place).drop width

/-- A header that starts at one place ends at the other: with a colon, and the line with it. -/
structure IsHeader (source : Text) (start stop : Nat) : Prop where
  start_lt : start < stop
  colon : (source.take stop).getLast? = some 0x3A
  isEmptyLine : Text.isEmptyLine (source.drop stop) = true

end Text

/-! ### Levels -/

/-- The line is a `match`. -/
def Line.isMatch : Line → Bool
  | .stmt (.matchStmt _ _) _ => true
  | _ => false

namespace Block

/-- The first line of a block that is not a comment. -/
def firstCode? (block : Block) : Option Line := block.find? (!Line.isComment ·)

/-- Where the last line of a block ends. -/
def stop (block : Block) : Nat := (block.getLast?.map (·.span.stop.offset)).getD 0

end Block

mutual

/-- The lines of the block stand at the level, and the blocks in them at greater ones. -/
inductive Block.IsIndented (source : Text) : (level : Nat) → Block → Prop where
  | mk {level : Nat} {block : Block}
      (starts : ∀ l ∈ block, l.isComment = false → source.BeginsItem level l.span.start.offset)
      (governs : ∀ l ∈ block, Line.Governs source level l) : Block.IsIndented source level block

/-- The blocks of a line of the level are indented. -/
inductive Line.Governs (source : Text) : (level : Nat) → Line → Prop where
  /-- It has none. -/
  | flat {level : Nat} {l : Line} (h : l.bodies = []) : Line.Governs source level l
  /-- The line is the header of the first one. -/
  | headed {level : Nat} {l : Line} (hl : l.isMatch = false)
      (h : Headed source level l.span.start.offset l.bodies) : Line.Governs source level l
  /-- The cases of a `match` have a greater width than the header. -/
  | cases {level width stop : Nat} {subject : Expr} {cases : List Condition} {span : Span}
      (header : source.IsHeader span.start.offset stop) (deeper : level < width)
      (h : Continued source width stop (cases.map Condition.block)) :
      Line.Governs source level (.stmt (.matchStmt subject cases) span)

/-- The header of the first block, indented by `width`, starts at the place. -/
inductive Headed (source : Text) : (width start : Nat) → List Block → Prop where
  | mk {width start stop level : Nat} {body : Block} {l : Line} {bodies : List Block}
      (header : source.IsHeader start stop) (deeper : width < level)
      (first : body.firstCode? = some l) (opens : source.OpensNext stop level l.span.start.offset)
      (indented : Block.IsIndented source level body) (rest : Continued source width body.stop bodies) :
      Headed source width start (body :: bodies)

/-- Further blocks, the header of each on the next line of code, indented by `width`. -/
inductive Continued (source : Text) : (width place : Nat) → List Block → Prop where
  | nil {width place : Nat} : Continued source width place []
  | next {width place start : Nat} {bodies : List Block}
      (opens : source.OpensNext place width start) (h : Headed source width start bodies) :
      Continued source width place bodies

end

/-! ### Going along a line -/

namespace Text

theorem behindLine_append {l t : Text} (hl : ∀ u ∈ l, u ≠ CodeUnit.lineFeed) :
    behindLine (l ++ t) = behindLine t :=
  List.dropWhile_append_of_pos fun u hu => by simpa using hl u hu

/-- Behind a line without code the next line of code is that of the line. -/
theorem nextCode_behindLine {t : Text} (h : t.isEmptyLine = true) :
    t.behindLine.nextCode = t.nextCode := by
  have hline : ∀ u ∈ t.takeWhile (· != CodeUnit.lineFeed), u ≠ CodeUnit.lineFeed := fun u hu => by
    simpa using List.mem_takeWhile_imp hu
  have hrest : t.behindLine.isEmptyLine = true := by
    have hfeed := avoids_dropWhile (· != CodeUnit.lineFeed) t
    refine isEmptyLine_of_atLineEnd ?_
    rw [behindLine]
    generalize List.dropWhile (· != CodeUnit.lineFeed) t = rest at hfeed
    cases rest with
    | nil => rfl
    | cons u rest =>
      obtain rfl : u = CodeUnit.lineFeed := by simpa using hfeed
      rfl
  have hsplit : t.takeWhile (· != CodeUnit.lineFeed) ++ t.behindLine = t :=
    List.takeWhile_append_dropWhile
  rw [← hsplit] at h
  exact (nextCode_append h hline hrest).symm.trans (by rw [hsplit])

/-- A line break comes before the next line of code. -/
theorem nextCode_drop_lineBreakLength (t : Text) :
    nextCode (t.drop t.lineBreakLength) = t.nextCode := by
  have hdrop := drop_codeDistance t
  rwa [codeDistance, ← List.drop_drop] at hdrop

/-- The spaces at the start of a text. -/
theorem take_indentation (t : Text) : t.take t.indentation = spaces t.indentation := by
  rw [indentation, ← List.prefix_iff_eq_take.mp (List.takeWhile_prefix _)]
  exact List.eq_replicate_iff.mpr ⟨rfl, fun u hu => beq_iff_eq.mp (takeWhile_pos u hu)⟩

end Text

namespace Cursor

variable {source : Text} {c : Cursor}

theorem IsIn.codeBehind_eq (hc : c.IsIn source) :
    source.codeBehind c.location.offset = c.ahead.behindLine.nextCode := by
  rw [Text.codeBehind, ← hc.ahead_eq]

/-- At the end of a line the code behind it is the code that is ahead. -/
theorem IsIn.codeBehind_of_isEmptyLine (hc : c.IsIn source) (h : c.ahead.isEmptyLine = true) :
    source.codeBehind c.location.offset = c.ahead.nextCode := by
  rw [hc.codeBehind_eq, Text.nextCode_behindLine h]

/-- Where a line starts, and so many spaces are ahead, its code starts behind them. -/
theorem IsIn.opensLine (hc : c.IsIn source) (hlines : Text.IsLines (source.take c.location.offset)) :
    source.OpensLine c.ahead.indentation (c.advanceBy c.ahead.indentation).location.offset :=
  ⟨_, hlines, by rw [hc.take_advanceBy, Text.take_indentation]⟩

end Cursor

/-! ### Chains of blocks -/

/--
The cursor is behind the last one of some blocks, and whatever further blocks come next, indented by
`width`, make up `P` with them.
-/
def Awaits (source : Text) (width : Nat) (P : List Block → Prop) (c : Cursor) : Prop :=
  ∃ place, c.ahead.nextCode = source.codeBehind place ∧
    ∀ bodies, Continued source width place bodies → P bodies

namespace Awaits

variable {source : Text} {width n : Nat} {P Q : List Block → Prop} {c : Cursor}
  {accept : Text → Bool}

theorem mono (h : Awaits source width P c) (hPQ : ∀ bodies, P bodies → Q bodies) :
    Awaits source width Q c := by
  obtain ⟨place, hcode, hP⟩ := h
  exact ⟨place, hcode, fun bodies hbodies => hPQ bodies (hP bodies hbodies)⟩

/-- There need not be a further block. -/
theorem nil (h : Awaits source width P c) : P [] := by
  obtain ⟨place, -, hP⟩ := h
  exact hP [] .nil

/-- A line that is sought is the header of the next block. -/
theorem next (h : Awaits source width P c) (hc : c.IsIn source)
    (hread : Reader.seekLine width accept c.ahead = .took true n) (hend : accept [] = false)
    {bodies : List Block} (hbodies : Headed source width (c.advanceBy n).location.offset bodies) :
    P bodies := by
  obtain ⟨place, hcode, hP⟩ := h
  rw [Reader.seekLine, Text.drop_codeDistance] at hread
  split_ifs at hread with hline
  · rw [Bool.and_eq_true, beq_iff_eq] at hline
    cases hread
    refine hP bodies (.next ⟨fun hnil => ?_, by rw [← hcode, hline.1], ?_⟩ hbodies)
    · rw [hcode, hnil, List.drop_nil, hend] at hline
      exact Bool.noConfusion hline.2
    · rw [← (hc.advanceBy _).ahead_eq, Cursor.ahead_advanceBy, ← List.drop_drop,
        Text.drop_codeDistance, hcode]
  · cases hread

end Awaits

end GDScript
