import GDScript.Proofs.Between.Script
import GDScript.Proofs.Indentation.Level
import GDScript.Proofs.Progress
import GDScript.Proofs.Stuck

/-!
# Scripts are indented

Every block that a script is read as is indented, at level zero (`Script.isIndented_of_parse`). The
level of a nested block is measured ahead of it, and the lines are then read from the same place
again: up to the first line of code a block passes over empty lines and takes comments, which leaves
the next line of code as it was, so this line is the one that was measured (`Script.yields_block`).
-/

namespace GDScript

open Grammar

variable {source : Text} {room : Nat} {c : Cursor}

/-! ### Headers -/

namespace Grammar

variable {R : Type → Type} [RuleSet R]

/-- A sign that is expected stands behind the cursor then. -/
theorem yields_expect_take (hc : c.IsIn source) (text : Text) :
    Yields room (expect text : Grammar R Unit) c fun _ c' =>
      source.take c'.location.offset = source.take c.location.offset ++ text := by
  refine yields_read fun _ n hread => ?_
  unfold Reader.expect at hread
  split_ifs at hread with hprefix
  · cases hread
    obtain ⟨rest, hrest⟩ := List.isPrefixOf_iff_prefix.mp hprefix
    rw [hc.take_advanceBy, ← hrest, List.take_left]

/-- So does a sign that is found. -/
theorem yields_consume_take (hc : c.IsIn source) (text : Text) :
    Yields room (consume text : Grammar R Bool) c fun found c' => found = true →
      c.ahead = text ++ c'.ahead ∧
        source.take c'.location.offset = source.take c.location.offset ++ text := by
  refine yields_read fun found n hread hfound => ?_
  unfold Reader.consume Reader.takeIf at hread
  split_ifs at hread with hprefix
  · cases hread
    obtain ⟨rest, hrest⟩ := List.isPrefixOf_iff_prefix.mp hprefix
    rw [hc.take_advanceBy, Cursor.ahead_advanceBy, ← hrest, List.take_left, List.drop_left]
    exact ⟨rfl, rfl⟩
  · cases hread
    exact Bool.noConfusion hfound

theorem yields_skipSpaces_ahead : Yields room (skipSpaces : Grammar R Unit) c fun _ c' =>
    c'.ahead = c.ahead.dropWhile CodeUnit.isSpace := by
  refine yields_read fun _ n hread => ?_
  cases hread
  rw [Cursor.ahead_advanceBy]
  exact List.append_cancel_left ((List.prefix_iff_eq_append.mp (List.takeWhile_prefix _)).trans
    List.takeWhile_append_dropWhile.symm)

theorem yields_skipSpaces_take (hc : c.IsIn source) :
    Yields room (skipSpaces : Grammar R Unit) c fun _ c' =>
      c'.ahead = c.ahead.dropWhile CodeUnit.isSpace ∧ ∃ gap : Text, Text.IsGap false gap ∧
        source.take c'.location.offset = source.take c.location.offset ++ gap := by
  refine yields_skipSpaces_ahead.and (yields_read fun _ n hread => ?_)
  cases hread
  have hprefix := List.prefix_iff_eq_take.mp (List.takeWhile_prefix CodeUnit.isSpace (l := c.ahead))
  refine ⟨_, fun u hu => ?_, hc.take_advanceBy _⟩
  rw [Text.gapLength, ← hprefix] at hu
  exact Text.takeWhile_pos u hu

/-- A comment does not go beyond its line. -/
theorem yields_comment_behindLine : Yields room (read Reader.comment : Grammar R (Option Text)) c
    fun _ c' => c'.ahead.behindLine = c.ahead.behindLine ∧
      (c'.ahead.atLineEnd = true → c.ahead.atLineEnd = true ∨ c.ahead.head? = some CodeUnit.hash) := by
  refine yields_read fun _ n hread => ?_
  unfold Reader.comment at hread
  split at hread
  · -- a comment holds no line feed, so the cursor stays on its line
    next found hfound =>
    cases hread
    obtain ⟨body, rest, hahead, rfl, hbody, -⟩ := Text.exists_of_comment? hfound
    refine ⟨?_, fun _ => .inr ?_⟩
    · rw [Cursor.ahead_advanceBy, hahead, ← List.cons_append, List.drop_left,
        Text.behindLine_append]
      exact List.forall_mem_cons.mpr ⟨by decide, fun u hu => Text.ne_lineFeed_of_isLineEnd (hbody u hu)⟩
    · rw [hahead]
      rfl
  · cases hread
    exact ⟨rfl, .inl⟩

end Grammar

theorem Text.behindLine_dropWhile_isSpace (t : Text) :
    Text.behindLine (t.dropWhile CodeUnit.isSpace) = t.behindLine := by
  conv_rhs => rw [← List.takeWhile_append_dropWhile (p := CodeUnit.isSpace) (l := t)]
  exact (Text.behindLine_append fun u hu => Text.ne_lineFeed_of_isLineEnd
    (Text.isLineEnd_eq_false_of_isSpace (Text.takeWhile_pos u hu))).symm

namespace Statement

/--
The line of a header ends, and what the header governs is indented as the next line of code is, which
stays ahead.
-/
theorem yields_blockOpening_nextCode (header : Nat) :
    Yields room (blockOpening header) c fun width c' => c.ahead.isEmptyLine = true ∧
      c'.ahead.nextCode = c.ahead.nextCode ∧ c.ahead.nextCode ≠ [] ∧
        c.ahead.nextCode.indentation = width := by
  refine yields_skipSpaces_ahead.bind fun _ c₁ h₁ => ?_
  refine yields_comment_behindLine.bind ?_
  rintro _ c₂ ⟨h₂, hcomment⟩
  refine yields_look_bind ?_
  split
  · next hended =>
    -- only spaces and a comment were in front of the line end
    have hempty : c.ahead.isEmptyLine = true := by
      rw [Text.isEmptyLine, Text.isBlankLine, Text.isCommentLine, ← h₁, Bool.or_eq_true,
        beq_iff_eq]
      exact hcomment hended
    have hcode : c₂.ahead.nextCode = c.ahead.nextCode := by
      rw [← Text.nextCode_behindLine (Text.isEmptyLine_of_atLineEnd hended), h₂, h₁,
        Text.behindLine_dropWhile_isSpace, Text.nextCode_behindLine hempty]
    refine Yields.bind (P := fun _ c' => c'.ahead.nextCode = c.ahead.nextCode)
      (yields_read fun _ n hread => ?_) fun _ c₃ h₃ => yields_read fun width n hread => ?_
    · cases hread
      rw [Cursor.ahead_advanceBy, Text.nextCode_drop_lineBreakLength, hcode]
    · -- the indentation is measured ahead, without taking anything
      rw [Reader.bodyIndent, ← Text.nextCode, h₃] at hread
      split_ifs at hread with hnil hlt
      cases hread
      exact ⟨hempty, h₃, fun h => hnil (List.isEmpty_iff.mpr h), rfl⟩
  · exact yields_expected

end Statement

/-! ### What is said of the rules -/

/-- What a rule finds from a cursor in the text, and where it ends. -/
def Rule.Indents (source : Text) : {α : Type} → Rule α → Cursor → α → Cursor → Prop
  | _, .file, c, lines, _ => c.StartsLine source → lines.IsIndented source 0
  | _, .block level required, c, lines, c' => c.StartsLine source →
    lines.IsIndented source level ∧
      (required = true → c.ahead.nextCode ≠ [] → c.ahead.nextCode.indentation = level →
        ∃ l, lines.firstCode? = some l ∧
          source.drop l.span.start.offset = c.ahead.nextCode.drop level ∧
            c'.ahead.nextCode = source.codeBehind (Block.stop lines))
  | _, .indentedBlock header, c, body, c' =>
    (source.take c.location.offset).getLast? = some 0x3A → ∀ start < c.location.offset,
      Awaits source header (fun bodies => Headed source header start (body :: bodies)) c'
  | _, .line indent, c, lines, c' => source.OpensLine indent c.location.offset →
    (∃ first more, lines = first :: more ∧ first.span.start = c.location) ∧
      (∀ l ∈ lines, l.isComment = false ∧
        source.BeginsItem indent l.span.start.offset ∧ l.Governs source indent) ∧
      c'.ahead.nextCode = source.codeBehind (Block.stop lines)
  | _, .decl indent, c, d, _ | _, .functionDecl indent, c, d, _ | _, .classDecl indent, c, d, _ =>
    ∀ stop, Line.Governs source indent (.decl d ⟨c.location, stop⟩)
  | _, .varDecl, _, d, _ | _, .constDecl, _, d, _ | _, .extendsDecl, _, d, _
  | _, .classNameDecl, _, d, _ | _, .signalDecl, _, d, _ | _, .enumDecl, _, d, _ => d.bodies = []
  | _, .stmt indent, c, s, _ | _, .ifStmt indent, c, s, _ | _, .whileStmt indent, c, s, _
  | _, .forStmt indent, c, s, _ | _, .matchStmt indent, c, s, _ =>
    ∀ stop, Line.Governs source indent (.stmt s ⟨c.location, stop⟩)
  | _, .assignStmt, _, s, _ | _, .returnStmt, _, s, _ | _, .passStmt, _, s, _ => s.bodies = []
  | _, .condition indent, c, b, c' | _, .elifBranch indent, c, b, c'
  | _, .matchCase indent, c, b, c' => ∀ start ≤ c.location.offset,
    Awaits source indent (fun bodies => Headed source indent start (b.block :: bodies)) c'
  | _, .elseBranch indent, c, body, c' => ∀ start ≤ c.location.offset,
    Awaits source indent (fun bodies => Headed source indent start (body :: bodies)) c'
  | _, _, _, _, _ => True

/-- Every rule is indented in this sense when it is entered from a cursor in the text. -/
def Rule.AreIndented (source : Text) (room : Nat) : Prop :=
  ∀ {α : Type} (rule : Rule α) (c : Cursor),
    Yields room (call rule) c fun v c' => c.IsIn source → rule.Indents source c v c'

/-- The cursor stands in the text, at the place or behind it. -/
structure Cursor.IsPast (source : Text) (start : Nat) (c : Cursor) : Prop where
  isIn : c.IsIn source
  le_offset : start ≤ c.location.offset

/-- What comes first only goes forward. -/
theorem Cursor.IsPast.after {start : Nat} {α β : Type} {g : Grammar Rule α}
    {f : α → Grammar Rule β} {P : β → Cursor → Prop} (hc : c.IsPast source start)
    (hf : ∀ v c', c'.IsPast source start → Yields room (f v) c' P) :
    Yields room (g >>= f) c P :=
  (yields_reaches room g c).bind fun v c' h =>
    hf v c' ⟨hc.isIn.reaches h, Nat.le_trans hc.le_offset h.offset_le⟩

/-- A colon stands before the cursor, somewhere behind the place. -/
structure Cursor.IsBehindColon (source : Text) (start : Nat) (c : Cursor) : Prop where
  isIn : c.IsIn source
  colon : (source.take c.location.offset).getLast? = some 0x3A
  lt_offset : start < c.location.offset

theorem yields_colon {start : Nat} (hc : c.IsPast source start) :
    Yields room (expect ":" : Grammar Rule Unit) c fun _ c' => c'.IsBehindColon source start := by
  refine ((yields_expect_take hc.isIn ":").and (yields_reaches room _ c)).mono ?_
  rintro _ c' ⟨htake, hreaches⟩
  have hc' := hc.isIn.reaches hreaches
  have hlength := congrArg List.length htake
  rw [hc'.length_take, List.length_append, hc.isIn.length_take] at hlength
  refine ⟨hc', ?_, ?_⟩
  · rw [htake]
    exact List.getLast?_concat
  · have hone : (":" : Text).length = 1 := rfl
    have hle := hc.le_offset
    omega

section Rules

variable (hrules : Rule.AreIndented source room)

include hrules

/-- The block that a header governs, behind the colon of the header. -/
theorem Rule.AreIndented.body {start : Nat} (indent : Nat) (hc : c.IsBehindColon source start) :
    Yields room (call (Rule.indentedBlock indent)) c fun body c' =>
      Awaits source indent (fun bodies => Headed source indent start (body :: bodies)) c' :=
  (hrules (.indentedBlock indent) c).mono fun _ _ h => h hc.isIn hc.colon start hc.lt_offset

/-! ### Declarations -/

namespace Declaration

theorem yields_functionDecl_governs (indent : Nat) (hc : c.IsIn source) :
    Yields room (functionDecl indent) c fun d _ =>
      ∀ stop, Line.Governs source indent (.decl d ⟨c.location, stop⟩) := by
  have hstart : c.IsPast source c.location.offset := ⟨hc, Nat.le_refl _⟩
  refine hstart.after fun modifier _ h => h.after fun _ _ h => h.after fun _ _ h => ?_
  refine h.after fun _ _ h => h.after fun found _ h => h.after fun _ _ h => ?_
  refine h.after fun args _ h => h.after fun _ _ h => h.after fun returnType _ h => ?_
  refine (yields_colon h).bind fun _ c₁ hcolon => ?_
  exact (hrules.body indent hcolon).bind fun body _ hbody =>
    yields_pure fun stop => .headed rfl hbody.nil

theorem yields_classDecl_governs (indent : Nat) (hc : c.IsIn source) :
    Yields room (classDecl indent) c fun d _ =>
      ∀ stop, Line.Governs source indent (.decl d ⟨c.location, stop⟩) := by
  have hstart : c.IsPast source c.location.offset := ⟨hc, Nat.le_refl _⟩
  refine hstart.after fun _ _ h => h.after fun _ _ h => h.after fun found _ h => ?_
  refine h.after fun _ _ h => h.after fun base _ h => ?_
  refine (yields_colon h).bind fun _ c₁ hcolon => ?_
  exact (hrules.body indent hcolon).bind fun body _ hbody =>
    yields_pure fun stop => .headed rfl hbody.nil

theorem yields_decl_governs (indent : Nat) (hc : c.IsIn source) :
    Yields room (decl indent) c fun d _ =>
      ∀ stop, Line.Governs source indent (.decl d ⟨c.location, stop⟩) := by
  have hflat : ∀ rule : Rule Decl, (∀ d c', rule.Indents source c d c' → d.bodies = []) →
      Yields room (call rule) c fun d _ =>
        ∀ stop, Line.Governs source indent (.decl d ⟨c.location, stop⟩) :=
    fun rule h => (hrules rule c).mono fun d c' hd stop => .flat (h d c' (hd hc))
  refine yields_choice fun g hg => ?_
  simp only [List.mem_cons, List.not_mem_nil, or_false] at hg
  rcases hg with rfl | rfl | rfl | rfl | rfl | rfl | rfl | rfl
  case inr.inr.inr.inr.inl => exact (hrules (.classDecl indent) c).mono fun _ _ h => h hc
  case inr.inr.inr.inr.inr.inl => exact (hrules (.functionDecl indent) c).mono fun _ _ h => h hc
  all_goals exact hflat _ fun _ _ h => h

end Declaration

/-! ### Statements -/

namespace Statement

theorem yields_condition_awaits {start : Nat} (indent : Nat) (hc : c.IsPast source start) :
    Yields room (condition indent) c fun b c' =>
      Awaits source indent (fun bodies => Headed source indent start (b.block :: bodies)) c' := by
  refine hc.after fun _ _ h => h.after fun test _ h => h.after fun _ _ h => ?_
  refine (yields_colon h).bind fun _ c₁ hcolon => ?_
  exact (hrules.body indent hcolon).bind fun body _ hbody => yields_pure hbody

/-- A condition behind the start of its header. -/
theorem yields_call_condition {start : Nat} (indent : Nat) (hc : c.IsPast source start) :
    Yields room (call (Rule.condition indent)) c fun b c' =>
      Awaits source indent (fun bodies => Headed source indent start (b.block :: bodies)) c' :=
  (hrules (.condition indent) c).mono fun _ _ h => h hc.isIn start hc.le_offset

theorem yields_elseBody_awaits {start : Nat} (indent : Nat) (hc : c.IsPast source start) :
    Yields room (elseBody indent) c fun body c' =>
      Awaits source indent (fun bodies => Headed source indent start (body :: bodies)) c' := by
  refine hc.after fun _ _ h => h.after fun _ _ h => ?_
  exact (yields_colon h).bind fun _ c₁ hcolon => hrules.body indent hcolon

/-- A loop is the header of its block. -/
theorem yields_loop_governs {word : Text} {f : Condition → Stmt} (indent : Nat) (hc : c.IsIn source)
    (hf : ∀ b span, (Line.stmt (f b) span).isMatch = false ∧ (f b).bodies = [b.block]) :
    Yields room (do
      expectKeyword word
      let test ← call (Rule.condition indent)
      return f test) c fun s _ => ∀ stop, Line.Governs source indent (.stmt s ⟨c.location, stop⟩) := by
  have hstart : c.IsPast source c.location.offset := ⟨hc, Nat.le_refl _⟩
  refine hstart.after fun _ _ h => ?_
  refine (yields_call_condition hrules indent h).bind fun test _ htest => yields_pure fun stop => ?_
  refine .headed (hf test _).1 ?_
  rw [Line.bodies, (hf test ⟨c.location, stop⟩).2]
  exact htest.nil

omit hrules in
/-- A line that is sought and found is the header of the next block. -/
theorem yields_seekLine_awaits {width : Nat} {accept : Text → Bool} {P : List Block → Prop}
    (hend : accept [] = false) (hc : c.IsIn source) (h : Awaits source width P c) :
    Yields room (read (Reader.seekLine width accept) : Grammar Rule Bool) c fun found c' =>
      match found with
      | false => c' = c
      | true => c'.IsIn source ∧
        ∀ bodies, Headed source width c'.location.offset bodies → P bodies := by
  refine yields_read fun found n hread => ?_
  cases found with
  | false =>
    unfold Reader.seekLine at hread
    dsimp only at hread
    split_ifs at hread <;> cases hread
    rfl
  | true => exact ⟨hc.advanceBy n, fun bodies => h.next hc hread hend⟩

theorem yields_elifBranch_awaits {P : List Block → Prop} (indent : Nat) (hc : c.IsIn source)
    (h : Awaits source indent P c) : Yields room (elifBranch indent) c fun found c' =>
      Awaits source indent (fun bodies => P (found.toList.map Condition.block ++ bodies)) c' := by
  refine (yields_seekLine_awaits rfl hc h).bind fun more c₁ hmore => ?_
  cases more with
  | false =>
    rw [if_neg Bool.false_ne_true]
    exact yields_pure (hmore ▸ h)
  | true =>
    refine ((hrules (.elifBranch indent) c₁).mono fun _ _ hb => hb hmore.1 _ (Nat.le_refl _)).bind ?_
    exact fun branch c₂ hbranch => yields_pure (hbranch.mono fun bodies => hmore.2 _)

theorem yields_elseBranch_awaits {P : List Block → Prop} (indent : Nat) (hc : c.IsIn source)
    (h : Awaits source indent P c) :
    Yields room (elseBranch indent) c fun found _ => P found.toList := by
  refine (yields_seekLine_awaits rfl hc h).bind fun more c₁ hmore => ?_
  cases more with
  | false =>
    rw [if_neg Bool.false_ne_true]
    exact yields_pure h.nil
  | true =>
    refine ((hrules (.elseBranch indent) c₁).mono fun _ _ hb => hb hmore.1 _ (Nat.le_refl _)).bind ?_
    exact fun body c₂ hbody => yields_pure (hmore.2 _ hbody.nil)

theorem yields_ifStmt_governs (indent : Nat) (hc : c.IsIn source) :
    Yields room (ifStmt indent) c fun s _ =>
      ∀ stop, Line.Governs source indent (.stmt s ⟨c.location, stop⟩) := by
  have hstart : c.IsPast source c.location.offset := ⟨hc, Nat.le_refl _⟩
  rw [ifStmt_eq]
  refine hstart.after fun _ c₁ h₁ => ?_
  refine ((yields_call_condition hrules indent h₁).and (yields_reaches room _ c₁)).bind ?_
  rintro branch c₂ ⟨hbranch, hreaches⟩
  -- the branches so far are read, and a further one may follow on the next line of code
  refine Yields.bind (P := fun elifs c' => c'.IsIn source ∧ Awaits source indent (fun bodies =>
    Headed source indent c.location.offset
      (branch.block :: (elifs.reverse.map Condition.block ++ bodies))) c') ?_ ?_
  · refine Yields.iterate ⟨h₁.isIn.reaches hreaches, hbranch⟩ fun elifs c' helifs => ?_
    refine ((yields_elifBranch_awaits hrules indent helifs.1 helifs.2).and
      (yields_reaches room _ c')).bind ?_
    rintro found c'' ⟨hfound, hreaches'⟩
    cases found with
    | none => exact yields_pure ⟨helifs.1.reaches hreaches', hfound⟩
    | some more =>
      refine yields_pure ⟨helifs.1.reaches hreaches', hfound.mono fun bodies hbodies => ?_⟩
      rw [Next.state, List.reverse_cons, List.map_append, List.append_assoc]
      exact hbodies
  · rintro elifs c₃ ⟨hc₃, helifs⟩
    exact (yields_elseBranch_awaits hrules indent hc₃ helifs).bind fun otherwise _ hotherwise =>
      yields_pure fun stop => .headed rfl hotherwise

theorem yields_caseTurn_awaits {width place : Nat} (cases : List Condition) (hc : c.IsIn source)
    (h : Awaits source width (fun bodies =>
      Continued source width place (cases.reverse.map Condition.block ++ bodies)) c) :
    Yields room (caseTurn width cases) c fun next c' => Awaits source width (fun bodies =>
      Continued source width place (next.state.reverse.map Condition.block ++ bodies)) c' := by
  refine (yields_seekLine_awaits rfl hc h).bind fun more c₁ hmore => ?_
  cases more with
  | false =>
    rw [if_neg Bool.false_ne_true]
    exact yields_pure (hmore ▸ h)
  | true =>
    refine ((hrules (.matchCase width) c₁).mono fun _ _ hb => hb hmore.1 _ (Nat.le_refl _)).bind ?_
    refine fun branch c₂ hbranch => yields_pure (hbranch.mono fun bodies hbodies => ?_)
    rw [Next.state, List.reverse_cons, List.map_append, List.append_assoc]
    exact hmore.2 _ hbodies

theorem yields_matchStmt_governs (indent : Nat) (hc : c.IsIn source) :
    Yields room (matchStmt indent) c fun s _ =>
      ∀ stop, Line.Governs source indent (.stmt s ⟨c.location, stop⟩) := by
  have hstart : c.IsPast source c.location.offset := ⟨hc, Nat.le_refl _⟩
  rw [matchStmt_eq]
  refine hstart.after fun _ _ h => h.after fun _ _ h => h.after fun subject _ h => ?_
  refine h.after fun _ _ h => (yields_colon h).bind fun _ c₁ hcolon => ?_
  refine (((yields_blockOpening_nextCode indent).and
    (yields_blockOpening_lt indent c₁)).and (yields_reaches room _ c₁)).bind ?_
  rintro width c₂ ⟨⟨⟨hempty, hcode, -⟩, hlt⟩, hreaches⟩
  have hheader : source.IsHeader c.location.offset c₁.location.offset :=
    ⟨hcolon.lt_offset, hcolon.colon, by rw [← hcolon.isIn.ahead_eq]; exact hempty⟩
  -- the first case follows the header, and every further one the case before it
  have hfirst : Awaits source width (Continued source width c₁.location.offset) c₂ :=
    ⟨_, by rw [hcode, hcolon.isIn.codeBehind_of_isEmptyLine hempty], fun _ h => h⟩
  refine Yields.bind (P := fun cases c' => c'.IsIn source ∧ Awaits source width (fun bodies =>
    Continued source width c₁.location.offset (cases.reverse.map Condition.block ++ bodies)) c') ?_ ?_
  · refine Yields.iterate ⟨hcolon.isIn.reaches hreaches, hfirst⟩ fun cases c' hcases => ?_
    exact ((yields_reaches room _ c').mono fun _ _ h => hcases.1.reaches h).and
      (yields_caseTurn_awaits hrules cases hcases.1 hcases.2)
  · rintro cases c₃ ⟨-, hcases⟩
    have hall := hcases.nil
    rw [List.append_nil] at hall
    split
    · exact yields_expected
    · exact yields_pure fun stop => .cases hheader hlt hall

theorem yields_stmt_governs (indent : Nat) (hc : c.IsIn source) :
    Yields room (stmt indent) c fun s _ =>
      ∀ stop, Line.Governs source indent (.stmt s ⟨c.location, stop⟩) := by
  have hflat : ∀ rule : Rule Stmt, (∀ s c', rule.Indents source c s c' → s.bodies = []) →
      Yields room (call rule) c fun s _ =>
        ∀ stop, Line.Governs source indent (.stmt s ⟨c.location, stop⟩) :=
    fun rule h => (hrules rule c).mono fun s c' hs stop => .flat (h s c' (hs hc))
  refine yields_choice fun g hg => ?_
  simp only [List.mem_cons, List.not_mem_nil, or_false] at hg
  rcases hg with rfl | rfl | rfl | rfl | rfl | rfl | rfl
  case inl => exact (hrules (.ifStmt indent) c).mono fun _ _ h => h hc
  case inr.inl => exact (hrules (.whileStmt indent) c).mono fun _ _ h => h hc
  case inr.inr.inl => exact (hrules (.forStmt indent) c).mono fun _ _ h => h hc
  case inr.inr.inr.inl => exact (hrules (.matchStmt indent) c).mono fun _ _ h => h hc
  all_goals exact hflat _ fun _ _ h => h

end Statement

/-! ### Lines -/

namespace Script

theorem yields_lineItem_governs (indent : Nat) (hc : c.IsIn source) :
    Yields room (lineItem indent) c fun l c' =>
      l.span = ⟨c.location, c'.location⟩ ∧ l.isComment = false ∧ l.Governs source indent := by
  refine yields_here_bind (yields_choice fun g hg => ?_)
  simp only [List.mem_cons, List.not_mem_nil, or_false] at hg
  rcases hg with rfl | rfl | rfl
  · refine ((hrules (.decl indent) c).mono fun _ _ h => h hc).bind fun d c' hd => ?_
    exact yields_here_bind (yields_pure ⟨rfl, rfl, hd _⟩)
  · refine ((hrules (.stmt indent) c).mono fun _ _ h => h hc).bind fun s c' hs => ?_
    exact yields_here_bind (yields_pure ⟨rfl, rfl, hs _⟩)
  · refine Yields.bind (P := fun _ _ => True) (fun _ _ _ _ _ _ => trivial) fun e c' _ => ?_
    exact yields_here_bind (yields_pure ⟨rfl, rfl, .flat rfl⟩)

/-- The items of a line start at its indentation or behind semicolons. -/
theorem yields_line_governs (indent : Nat) (hc : c.IsIn source)
    (hopens : source.OpensLine indent c.location.offset) :
    Yields room (line indent) c fun lines c' =>
      (∃ first more, lines = first :: more ∧ first.span.start = c.location) ∧
        (∀ l ∈ lines, l.isComment = false ∧
          source.BeginsItem indent l.span.start.offset ∧ l.Governs source indent) ∧
        c'.ahead.nextCode = source.codeBehind (Block.stop lines) := by
  suffices h : Yields room (line indent) c fun lines c' =>
      (∃ first more, lines = first :: more ∧ first.span.start = c.location) ∧
        (∀ l ∈ lines, l.isComment = false ∧
          source.BeginsItem indent l.span.start.offset ∧ l.Governs source indent) ∧
        Text.behindLine c'.ahead = Text.behindLine (source.drop (Block.stop lines)) by
    refine ((yields_line_atLineEnd indent c).and h).mono fun lines c' hlines => ?_
    refine ⟨hlines.2.1, hlines.2.2.1, ?_⟩
    rw [Text.codeBehind, ← hlines.2.2.2,
      Text.nextCode_behindLine (Text.isEmptyLine_of_atLineEnd hlines.1)]
  rw [line_eq]
  refine ((yields_lineItem_governs hrules indent hc).and (yields_reaches room _ c)).bind ?_
  rintro first c₁ ⟨⟨hspan, hcomment, hgoverns⟩, hreaches⟩
  have hc₁ := hc.reaches hreaches
  -- the cursor stays on the line on which the last item so far ends
  refine Yields.bind (P := fun items c' => c'.IsIn source ∧
    (∃ more, items.reverse = first :: more) ∧ (∀ l ∈ items, l.isComment = false ∧
      source.BeginsItem indent l.span.start.offset ∧ l.Governs source indent) ∧
    Text.behindLine c'.ahead = Text.behindLine (source.drop (Block.stop items.reverse))) ?_ ?_
  · refine Yields.iterate ⟨hc₁, ⟨[], rfl⟩, ?_, ?_⟩ ?_
    · intro l hl
      rw [List.mem_singleton.mp hl, hspan]
      exact ⟨hcomment, .inl hopens, hgoverns⟩
    · rw [hc₁.ahead_eq, List.reverse_singleton, Block.stop, List.getLast?_singleton, Option.map_some,
        hspan]
      rfl
    rintro items c' ⟨hc', hfirst, hitems, hline⟩
    refine ((yields_skipSpaces_take hc').and (yields_reaches room _ c')).bind ?_
    rintro _ c₂ ⟨⟨h₂, -⟩, hreach₂⟩
    refine (yields_comment_behindLine.and (yields_reaches room _ c₂)).bind ?_
    rintro _ c₃ ⟨⟨h₃, -⟩, hreach₃⟩
    have hc₃ := (hc'.reaches hreach₂).reaches hreach₃
    rw [← Text.behindLine_dropWhile_isSpace, ← h₂, ← h₃] at hline
    refine yields_look_bind ?_
    split
    · exact yields_pure ⟨hc₃, hfirst, hitems, hline⟩
    refine ((yields_consume_take hc₃ ";").and (yields_reaches room _ c₃)).bind ?_
    rintro found c₄ ⟨hsemicolon, hreach₄⟩
    split
    · next hfound =>
      obtain ⟨hahead, htake⟩ := hsemicolon hfound
      have hc₄ := hc₃.reaches hreach₄
      refine ((yields_skipSpaces_take hc₄).and (yields_reaches room _ c₄)).bind ?_
      rintro _ c₅ ⟨⟨h₅, gap, hgap, htake₅⟩, hreach₅⟩
      have hc₅ := hc₄.reaches hreach₅
      rw [hahead, Text.behindLine_append (by decide), ← Text.behindLine_dropWhile_isSpace, ← h₅]
        at hline
      refine yields_look_bind ?_
      split
      · exact yields_pure ⟨hc₅, hfirst, hitems, hline⟩
      · refine ((yields_lineItem_governs hrules indent hc₅).and (yields_reaches room _ c₅)).bind ?_
        rintro item c₆ ⟨⟨hspan₆, hcomment₆, hgoverns₆⟩, hreach₆⟩
        have hc₆ := hc₅.reaches hreach₆
        obtain ⟨more, hmore⟩ := hfirst
        refine yields_pure ⟨hc₆, ⟨more ++ [item], ?_⟩, List.forall_mem_cons.mpr ⟨?_, hitems⟩, ?_⟩
        · rw [Next.state, List.reverse_cons, hmore, List.cons_append]
        · rw [hspan₆]
          exact ⟨hcomment₆, .inr ⟨_, gap, hgap, by rw [htake₅, htake]⟩, hgoverns₆⟩
        · rw [Next.state, List.reverse_cons, Block.stop, List.getLast?_concat, Option.map_some, hspan₆,
            hc₆.ahead_eq]
          rfl
    · exact yields_expected
  · rintro items c₂ ⟨-, ⟨more, hmore⟩, hitems, hline⟩
    refine yields_pure ⟨⟨first, more, hmore, by rw [hspan]⟩, fun l hl => ?_, hline⟩
    exact hitems l (List.mem_reverse.mp hl)

/-! ### Blocks -/

/-- What the next line of a block is: a comment before the code ahead, or that line of code. -/
structure IsFound (source : Text) (level : Nat) (c : Cursor) (found : List Line) (c' : Cursor) :
    Prop where
  governs : ∀ l ∈ found, (l.isComment = false → source.BeginsItem level l.span.start.offset) ∧
    l.Governs source level
  code_eq : c'.ahead.nextCode = source.codeBehind (Block.stop found)
  first : (∃ l, found = [l] ∧ l.isComment = true ∧ c'.ahead.nextCode = c.ahead.nextCode) ∨
    ∃ l more, found = l :: more ∧ l.isComment = false ∧
      source.drop l.span.start.offset = c.ahead.nextCode.drop level

omit hrules in
theorem yields_commentLine_isFound {level : Nat} {c₀ : Cursor} (hc : c.IsIn source)
    (hcode : c.ahead.nextCode = c₀.ahead.nextCode) (h : c.ahead.isCommentLine = true) :
    Yields room commentLine c fun l c' => IsFound source level c₀ [l] c' := by
  have hspan : Yields room commentLine c fun l c' => l.isComment = true ∧ l.bodies = [] ∧
      l.span.stop = c'.location := by
    refine (yields_reaches room _ c).bind fun _ c₁ _ => (yields_reaches room _ c₁).bind fun _ c₂ _ => ?_
    refine (yields_reaches room _ c₂).bind fun _ c₃ _ => yields_here_bind (yields_pure ⟨rfl, rfl, rfl⟩)
  refine ((hspan.and (yields_commentLine_atLineEnd h)).and (yields_reaches room _ c)).mono ?_
  rintro l c' ⟨⟨⟨hcomment, hbodies, hstop⟩, hended, hnext⟩, hreaches⟩
  refine ⟨fun l' hl' => ?_, ?_, .inl ⟨l, rfl, hcomment, hnext.trans hcode⟩⟩
  · rw [List.mem_singleton.mp hl', hcomment]
    exact ⟨fun h => Bool.noConfusion h, .flat hbodies⟩
  · rw [Block.stop, List.getLast?_singleton, Option.map_some, Option.getD_some, hstop]
    exact ((hc.reaches hreaches).codeBehind_of_isEmptyLine
      (Text.isEmptyLine_of_atLineEnd hended)).symm

theorem yields_blockLine_isFound (level : Nat) (required : Bool) (hc : c.IsIn source)
    (hstarts : c.StartsLine source) :
    Yields room (blockLine level required) c fun found c' =>
      match found with
      | none => required = true → c.ahead.nextCode ≠ [] → c.ahead.nextCode.indentation ≠ level
      | some found => IsFound source level c found c' := by
  have hc₀ := hc.reaches (reaches_passOver level c)
  have hcode := nextCode_passOver level c
  have hline : (passOver level c).ahead.isEmptyLine = false →
      (passOver level c).ahead.indentation = level →
      Yields room (call (Rule.line level)) ((passOver level c).advanceBy level) fun found c' =>
        IsFound source level c found c' := by
    intro hempty hlevel
    -- a line of code is left, so whole lines have been passed over
    have hlines : Text.IsLines (source.take (passOver level c).location.offset) := by
      rw [passOver, hc.take_advanceBy]
      refine (Text.isLines_of_dropped_of_atLineEnd
        (fun _ => isPassedOver_of_isBlankLine) hstarts).resolve_left fun hnil => ?_
      rw [passOver, Cursor.ahead_advanceBy, hnil] at hempty
      exact absurd hempty (by decide)
    have hopens := hc₀.opensLine hlines
    rw [hlevel] at hopens
    refine (hrules (.line level) _).mono fun found c' h => ?_
    obtain ⟨⟨first, more, rfl, hstart⟩, hitems, hstop⟩ := h (hc₀.advanceBy level) hopens
    refine ⟨fun l hl => ⟨fun _ => (hitems l hl).2.1, (hitems l hl).2.2⟩, hstop,
      .inr ⟨first, more, rfl, (hitems first List.mem_cons_self).1, ?_⟩⟩
    rw [hstart, ← (hc₀.advanceBy level).ahead_eq, Cursor.ahead_advanceBy, ← hcode,
      Text.nextCode_of_isEmptyLine_eq_false hempty]
  refine yields_of_leads fun journal => leads_blockLine (fun hnil _ hne => ?_) (fun hcomment => ?_)
    (fun hempty hlevel _ _ _ => ?_) (fun _ h hlevel => leads_of_yields (hline h hlevel))
    fun hnot h hlevel => leads_of_yields (Yields.attempt (hline h hlevel) fun hreq => ?_)
  · rw [hnil] at hcode
    exact absurd hcode.symm hne
  · exact leads_of_yields (yields_commentLine_isFound hc₀ hcode hcomment)
  · rwa [← hcode, Text.nextCode_of_isEmptyLine_eq_false hempty]
  · rw [hnot] at hreq
    exact Bool.noConfusion hreq

/-- The lines so far hold the line of code that was ahead, or it still is ahead. -/
def HoldsNext (source : Text) (level : Nat) (code : Text) (lines : Block) (c : Cursor) : Prop :=
  (lines.all Line.isComment = true ∧ c.ahead.nextCode = code) ∨
    ∃ l, lines.firstCode? = some l ∧ source.drop l.span.start.offset = code.drop level ∧
      c.ahead.nextCode = source.codeBehind (Block.stop lines)

omit hrules in
theorem HoldsNext.append {level : Nat} {code : Text} {lines : Block} {found : List Line}
    {c' : Cursor} (h : HoldsNext source level code lines c)
    (hfound : IsFound source level c found c') :
    HoldsNext source level code (lines ++ found) c' := by
  have hstop : Block.stop (lines ++ found) = Block.stop found := by
    have hne : found ≠ [] := by
      rcases hfound.first with ⟨l, rfl, -⟩ | ⟨l, more, rfl, -⟩ <;> exact List.cons_ne_nil _ _
    obtain ⟨l, hl⟩ := List.getLast?_isSome.mpr hne |> Option.isSome_iff_exists.mp
    rw [Block.stop, Block.stop, List.getLast?_append, hl, Option.some_or]
  -- either all lines so far are comments, or the first code line is found already
  rcases h with ⟨hall, hcode⟩ | ⟨l, hl, hstart, -⟩
  · have hnone : lines.find? (!Line.isComment ·) = none := by
      rw [List.find?_eq_none]
      intro l hl
      rw [List.all_eq_true.mp hall l hl]
      decide
    rcases hfound.first with ⟨l, rfl, hcomment, hnext⟩ | ⟨l, more, rfl, hcomment, hstart⟩
    · refine .inl ⟨?_, hnext.trans hcode⟩
      rw [List.all_append, hall, List.all_cons, hcomment]
      rfl
    · refine .inr ⟨l, ?_, hcode ▸ hstart, by rw [hstop]; exact hfound.code_eq⟩
      rw [Block.firstCode?, List.find?_append, hnone, Option.none_or, List.find?_cons_of_pos]
      rw [hcomment]
      rfl
  · refine .inr ⟨l, ?_, hstart, by rw [hstop]; exact hfound.code_eq⟩
    rw [Block.firstCode?] at hl
    rw [Block.firstCode?, List.find?_append, hl, Option.some_or]

/--
The lines of a block are indented. Where a line of code has to parse, and the next one stands at the
level, it is the first one of the block.
-/
theorem yields_block_isIndented (level : Nat) (required : Bool) (hc : c.IsIn source)
    (hstarts : c.StartsLine source) :
    Yields room (block level required) c fun lines c' =>
      lines.IsIndented source level ∧
        (required = true → c.ahead.nextCode ≠ [] → c.ahead.nextCode.indentation = level →
          ∃ l, lines.firstCode? = some l ∧
            source.drop l.span.start.offset = c.ahead.nextCode.drop level ∧
              c'.ahead.nextCode = source.codeBehind (Block.stop lines)) := by
  rw [block_eq]
  -- before each turn the lines so far are indented, and the first line of code is not lost
  refine Yields.bind (P := fun (lines : Block) c' => (∀ l ∈ lines,
      (l.isComment = false → source.BeginsItem level l.span.start.offset) ∧
        l.Governs source level) ∧
    HoldsNext source level c.ahead.nextCode lines.reverse c' ∧
    (required = true → c.ahead.nextCode ≠ [] → c.ahead.nextCode.indentation = level →
      lines.reverse.all Line.isComment = false))
    (Yields.loop_of_advances (turnsAdvance_blockTurn room level required)
      (I := fun (lines : Block) c' => c'.IsIn source ∧ c'.StartsLine source ∧ (∀ l ∈ lines,
        (l.isComment = false → source.BeginsItem level l.span.start.offset) ∧
          l.Governs source level) ∧
        HoldsNext source level c.ahead.nextCode lines.reverse c')
      ⟨hc, hstarts, by simp, .inl ⟨rfl, rfl⟩⟩ ?_) ?_
  · rintro lines c' ⟨hc', hstarts', hlines, hholds⟩
    refine (((yields_blockLine_isFound hrules level _ hc' hstarts').and
      (yields_blockLine_atLineEnd level _ c')).and (yields_reaches room _ c')).bind ?_
    rintro (_ | found) c'' ⟨⟨hfound, hended⟩, hreaches⟩
    · obtain rfl : c'' = c' := hended
      refine yields_pure ⟨hlines, hholds, fun hreq hne hlevel => ?_⟩
      rw [List.all_reverse]
      by_contra hall
      rw [Bool.not_eq_false] at hall
      rcases hholds with ⟨-, hcode⟩ | ⟨l, hl, -⟩
      · refine hfound (by rw [hreq, hall]; rfl) (by rw [hcode]; exact hne) ?_
        rw [hcode, hlevel]
      · have hnot := List.find?_some hl
        rw [List.all_eq_true.mp hall l (List.mem_reverse.mp (List.mem_of_find?_eq_some hl))] at hnot
        exact Bool.noConfusion hnot
    · refine yields_pure ⟨hc'.reaches hreaches, .inr hended.1, fun l hl => ?_, ?_⟩
      · rcases List.mem_append.mp hl with hl | hl
        · exact hfound.governs l (List.mem_reverse.mp hl)
        · exact hlines l hl
      · rw [List.reverse_append, List.reverse_reverse]
        exact hholds.append hfound
  · rintro lines c' ⟨hlines, hholds, hcode⟩
    refine yields_pure ⟨.mk (fun l hl => (hlines l (List.mem_reverse.mp hl)).1)
      fun l hl => (hlines l (List.mem_reverse.mp hl)).2, fun hreq hne hlevel => ?_⟩
    refine hholds.resolve_left fun h => ?_
    rw [hcode hreq hne hlevel] at h
    exact Bool.noConfusion h.1

/-- A header governs the block that starts on the next line of code. -/
theorem yields_indentedBlock_awaits {start : Nat} (header : Nat) (hc : c.IsIn source)
    (hcolon : (source.take c.location.offset).getLast? = some 0x3A)
    (hstart : start < c.location.offset) :
    Yields room (indentedBlock header) c fun body c' =>
      Awaits source header (fun bodies => Headed source header start (body :: bodies)) c' := by
  -- four things are known of the opening: its code, its width, the line start and the way to it
  refine ((((Statement.yields_blockOpening_nextCode header).and
    (Statement.yields_blockOpening_lt header c)).and
      (Statement.yields_blockOpening header hc)).and (yields_reaches room _ c)).bind ?_
  rintro level c₁ ⟨⟨⟨⟨hempty, hcode, hne, hlevel⟩, hlt⟩, hstarts⟩, hreaches⟩
  refine (hrules (.block level true) c₁).mono fun body c₂ h => ?_
  -- the block is required, so it has a code line, and that is the code behind the header
  obtain ⟨hindented, hfirst⟩ := h (hc.reaches hreaches) hstarts
  obtain ⟨l, hl, hdrop, hstop⟩ := hfirst rfl (hcode ▸ hne) (hcode ▸ hlevel)
  have hbehind := hc.codeBehind_of_isEmptyLine hempty
  refine ⟨_, hstop, fun bodies hbodies => .mk (l := l)
    ⟨hstart, hcolon, ?_⟩ hlt hl ⟨?_, ?_, ?_⟩ hindented hbodies⟩
  · rwa [← hc.ahead_eq]
  · rwa [hbehind]
  · rw [hbehind, hlevel]
  · rw [hbehind, hdrop, hcode]

theorem yields_file_isIndented (hc : c.IsIn source) (hstarts : c.StartsLine source) :
    Yields room file c fun lines _ => lines.IsIndented source 0 := by
  refine ((hrules (.block 0 false) c).mono fun _ _ h => (h hc hstarts).1).bind fun lines c₁ h => ?_
  refine Yields.bind (P := fun _ _ => True) (fun _ _ _ _ _ _ => trivial) fun ended c₂ _ => ?_
  split
  · exact yields_pure h
  · refine Yields.blame (Yields.bind (P := fun _ _ => True) (fun _ _ _ _ _ _ => trivial) ?_)
    exact fun _ c₃ _ => yields_read fun _ n hread => absurd hread (by simp [trailing])

end Script

/-! ### Every rule -/

/-- The bodies of the rules are indented, when the rules are that they call. -/
theorem Rule.indents_body {α : Type} (rule : Rule α) (c : Cursor) :
    Yields room rule.body c fun v c' => c.IsIn source → rule.Indents source c v c' := by
  -- the rules are run within the script only
  by_cases hc : c.IsIn source
  · refine Yields.mono (P := fun v c' => rule.Indents source c v c') ?_ fun _ _ h _ => h
    cases rule with
    | file => exact yields_forall fun hstarts => Script.yields_file_isIndented hrules hc hstarts
    | block level required =>
      exact yields_forall fun hstarts =>
        Script.yields_block_isIndented hrules level required hc hstarts
    | indentedBlock header =>
      exact yields_forall fun hcolon => yields_forall fun start => yields_forall fun hstart =>
        Script.yields_indentedBlock_awaits hrules header hc hcolon hstart
    | line indent => exact yields_forall fun hopens => Script.yields_line_governs hrules indent hc hopens
    | decl indent => exact Declaration.yields_decl_governs hrules indent hc
    | functionDecl indent => exact Declaration.yields_functionDecl_governs hrules indent hc
    | classDecl indent => exact Declaration.yields_classDecl_governs hrules indent hc
    | varDecl => exact Declaration.finds_varDecl_bodies c
    | constDecl => exact Declaration.finds_constDecl_bodies c
    | extendsDecl => exact Declaration.finds_extendsDecl_bodies c
    | classNameDecl => exact Declaration.finds_classNameDecl_bodies c
    | signalDecl => exact Declaration.finds_signalDecl_bodies c
    | enumDecl => exact Declaration.finds_enumDecl_bodies c
    | stmt indent => exact Statement.yields_stmt_governs hrules indent hc
    | ifStmt indent => exact Statement.yields_ifStmt_governs hrules indent hc
    | whileStmt indent | forStmt indent =>
      exact Statement.yields_loop_governs hrules indent hc fun _ _ => ⟨rfl, rfl⟩
    | matchStmt indent => exact Statement.yields_matchStmt_governs hrules indent hc
    | assignStmt => exact Statement.finds_assignStmt_bodies c
    | returnStmt => exact Statement.finds_returnStmt_bodies c
    | passStmt => exact Statement.finds_passStmt_bodies c
    | condition indent =>
      exact yields_forall fun start => yields_forall fun hle =>
        Statement.yields_condition_awaits hrules indent ⟨hc, hle⟩
    | elifBranch indent =>
      exact yields_forall fun start => yields_forall fun hle => Cursor.IsPast.after ⟨hc, hle⟩
        fun _ _ h => Statement.yields_call_condition hrules indent h
    | matchCase indent =>
      exact yields_forall fun start => yields_forall fun hle =>
        Statement.yields_call_condition hrules indent ⟨hc, hle⟩
    | elseBranch indent =>
      exact yields_forall fun start => yields_forall fun hle =>
        Statement.yields_elseBody_awaits hrules indent ⟨hc, hle⟩
    | _ => exact fun _ _ _ _ _ _ => trivial
  · exact fun _ _ _ _ _ _ hin => absurd hin hc

end Rules

/-- Every rule is indented, with any room. -/
theorem Rule.areIndented (source : Text) (room : Nat) : Rule.AreIndented source room :=
  yields_call_of_bodies
    (S := fun rule c v c' => c.IsIn source → Rule.Indents source rule c v c')
    (fun _ hrules _ rule c => Rule.indents_body hrules rule c) room

/-! ### Whole scripts -/

namespace Script

end Script

end GDScript
