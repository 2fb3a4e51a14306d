import GDScript.Proofs.Pairing.Statement

/-!
# Lines and blocks in two texts

A block takes the lines of one indentation in both texts (`Pairing.pairs_block`). Where only the
first text ends, a block within another one stops before the line of code that is next in the other
text, since that one is not indented; if it takes a comment before, only the other text goes on. At
the top level both texts have to end together. With the other rules this gives that all rules go alike
that read blocks (`Pairing.blockCarry`).
-/

namespace GDScript

open Grammar

/-! ### Blocks that hold the next line of code -/

namespace Script

variable {room : Nat}

/-- What is found of a line of the given kind. -/
def nextLine (level : Nat) (required : Bool) : LineKind → Grammar Rule (Option (List Line))
  | .ended => return none
  | .comment => do
    let found ← commentLine
    return some [found]
  | .misplaced => do
    note fun t => .indentation "of" level t 0
    return none
  | .code => do
    read (Reader.skip fun _ => level)
    if required then
      let items ← call (.line level)
      return some items
    else attempt (call (.line level))

theorem blockLine_eq (level : Nat) (required : Bool) :
    blockLine level required = Grammar.optional (do
      read (Reader.skip (Text.droppedLength (isPassedOver level) false))
      let kind ← look (lineKind level)
      nextLine level required kind) := rfl

/-- A line holds an item at least. -/
theorem finds_line_ne_nil (indent : Nat) : Finds room (line indent) (· ≠ []) := by
  refine Finds.after fun first => ?_
  refine Finds.bind (P := (· ≠ [])) (Finds.iterate (I := (· ≠ [])) (List.cons_ne_nil _ _)
    fun items hitems => ?_) fun items hitems => finds_pure (by simpa using hitems)
  refine Finds.after fun _ => Finds.after fun _ => Finds.after fun ended => ?_
  split
  · exact finds_pure hitems
  · refine Finds.after fun semicolon => ?_
    split
    · refine Finds.after fun _ => Finds.after fun last => ?_
      split
      · exact finds_pure hitems
      · exact Finds.after fun item => finds_pure (List.cons_ne_nil item items)
    · exact finds_expected

/--
A block finds something if its first line of code has to parse, and the next line of code is at its
level.
-/
theorem yields_block_ne_nil {level : Nat} {c : Cursor} (hne : c.ahead.nextCode ≠ [])
    (hlevel : c.ahead.nextCode.indentation = level) :
    Yields room (block level true) c fun lines _ => lines ≠ [] := by
  have hfirst : Yields room (blockLine level true) c fun found _ =>
      ∃ items, found = some items ∧ items ≠ [] := by
    refine yields_of_leads fun journal => leads_blockLine (fun hended => ?_) (fun _ => ?_)
      (fun hempty hmisplaced => ?_) (fun _ _ _ => ?_) fun hnot => Bool.noConfusion hnot
    · rw [← nextCode_passOver level c, hended] at hne
      exact absurd rfl hne
    · exact leads_of_forall fun l _ _ => ⟨[l], rfl, List.cons_ne_nil l []⟩
    · rw [← nextCode_passOver level c, Text.nextCode_of_isEmptyLine_eq_false hempty] at hlevel
      exact absurd hlevel hmisplaced
    · exact leads_of_yields ((yields_call fun _ => finds_line_ne_nil level _).mono
        fun items _ hitems => ⟨items, rfl, hitems⟩)
  have hturn := turnsAdvance_blockTurn room level true
  rw [block_eq]
  -- as long as there are no lines the cursor has not moved, so the line of code is still ahead
  refine Yields.bind (P := fun (lines : Block) _ => lines ≠ []) (Yields.loop_of_advances hturn
    (I := fun lines c' => lines = [] → c' = c) (fun _ => rfl) fun lines c' hstays => ?_)
    fun lines _ hlines => yields_pure (by simpa using hlines)
  cases lines with
  | nil =>
    rw [hstays rfl]
    refine hfirst.bind fun found c'' hfound => ?_
    obtain ⟨items, rfl, hitems⟩ := hfound
    exact yields_pure fun h => absurd h (by simpa using hitems)
  | cons l lines =>
    refine (yields_reaches room _ c').bind fun found c'' _ => ?_
    cases found with
    | none => exact yields_pure (List.cons_ne_nil l lines)
    | some items => exact yields_pure fun h => absurd h (by simp)

/-- So it takes a unit at least. -/
theorem yields_block_lt {level : Nat} {c : Cursor} (hne : c.ahead.nextCode ≠ [])
    (hlevel : c.ahead.nextCode.indentation = level) :
    Yields room (block level true) c fun _ c' => c'.ahead.length < c.ahead.length := by
  have hlt : Yields room (block level true) c fun lines c' =>
      lines ≠ [] → c'.ahead.length < c.ahead.length := by
    rw [block_eq]
    refine (yields_iterate_lt (turnsAdvance_blockTurn room level true)
      (yields_blockTurn_kept room level true) c).bind fun lines c' hshort => yields_pure fun hsome => ?_
    exact hshort (by simpa using hsome)
  exact ((yields_block_ne_nil hne hlevel).and hlt).mono fun _ _ h => h.2 h.1

/-- A comment at its level is taken by a block. -/
theorem yields_blockTurns_comment {level : Nat} (required : Bool) (lines : Block) {c : Cursor}
    (hcomment : (passOver level c).ahead.isCommentLine = true) :
    Yields room (iterate (blockTurn level required) lines) c fun _ c' =>
      ∃ k, 0 < k ∧ c' = (passOver level c).advanceBy k := by
  have hempty : (passOver level c).ahead.isEmptyLine = true := by
    rw [Text.isEmptyLine, hcomment, Bool.or_true]
  have hbehind : ∀ {d d' : Cursor}, (∃ k, 0 < k ∧ d = (passOver level c).advanceBy k) →
      d.Reaches d' → ∃ k, 0 < k ∧ d' = (passOver level c).advanceBy k := by
    rintro _ _ ⟨k, hk, rfl⟩ ⟨m, -, rfl⟩
    exact ⟨k + m, Nat.add_pos_left hk m, by rw [Cursor.advanceBy_advanceBy]⟩
  have hfirst : Yields room (blockLine level (required && lines.all Line.isComment)) c
      fun found c' => found ≠ none ∧ ∃ k, 0 < k ∧ c' = (passOver level c).advanceBy k := by
    refine yields_of_leads fun journal => leads_blockLine (fun hended => ?_) (fun _ => ?_)
      (fun hcode => ?_) (fun _ hcode => ?_) fun _ hcode => ?_
    · rw [hended] at hcomment
      exact absurd hcomment (by decide)
    · refine leads_of_yields (((yields_commentLine_lt room hcomment).and
        (yields_reaches room _ _)).mono ?_)
      rintro l c' ⟨hlt, k, -, rfl⟩
      refine ⟨Option.some_ne_none _, k, Nat.pos_of_ne_zero ?_, rfl⟩
      rintro rfl
      exact absurd hlt (by simp)
    all_goals
      rw [hempty] at hcode
      exact Bool.noConfusion hcode
  -- the first turn takes the comment, and the others go on behind it
  refine Yields.loop_of_advances (turnsAdvance_blockTurn room level required)
    (I := fun y d => y = lines ∧ d = c ∨ ∃ k, 0 < k ∧ d = (passOver level c).advanceBy k)
    (.inl ⟨rfl, rfl⟩) ?_
  rintro y d (⟨rfl, rfl⟩ | hd)
  · refine hfirst.bind fun found d' hfound => ?_
    cases found with
    | none => exact absurd rfl hfound.1
    | some items => exact yields_pure (.inr hfound.2)
  · refine (yields_reaches room _ d).mono fun next d' hreach => ?_
    cases next with
    | again z => exact .inr (hbehind hd hreach)
    | done z => exact hbehind hd hreach

end Script

/-- The spaces at the start of a line are the first part of its gap. -/
theorem Text.gapLength_eq (t : Text) :
    t.gapLength = t.indentation + Text.gapLength (t.drop t.indentation) := by
  have hlength : ∀ s : Text, s.gapLength + (s.dropWhile CodeUnit.isSpace).length = s.length := by
    intro s
    rw [gapLength, ← List.length_append, List.takeWhile_append_dropWhile]
  have hle : t.indentation ≤ t.length := (List.takeWhile_prefix _).length_le
  have hwhole := hlength t
  have hrest := hlength (t.drop t.indentation)
  rw [dropWhile_isSpace_drop_indentation, List.length_drop] at hrest
  omega

/-! ### Lines that are the same -/

namespace TokenPairing

variable {p : TokenPairing}

/-- The lines are the same, apart from their quotations and as far as their places are kept. -/
def SameItem (p : TokenPairing) (l l' : Line) : Prop := l'.map id p.view' = l.map p.quoted p.view

section Places

variable {start start' stop stop' : Location} (hstart : p.reports.place start start')
  (hstop : p.reports.place stop stop')

include hstart hstop

theorem sameItem_decl {d d' : Decl} (h : p.SameDecl d d') :
    p.SameItem (.decl d ⟨start, stop⟩) (.decl d' ⟨start', stop'⟩) := by
  rw [SameItem, Line.map, Line.map, Span.map, Span.map, p.view_eq hstart, p.view_eq hstop, h]

theorem sameItem_stmt {s s' : Stmt} (h : p.SameStmt s s') :
    p.SameItem (.stmt s ⟨start, stop⟩) (.stmt s' ⟨start', stop'⟩) := by
  rw [SameItem, Line.map, Line.map, Span.map, Span.map, p.view_eq hstart, p.view_eq hstop, h]

theorem sameItem_expr (h : p.SameExpr e e') :
    p.SameItem (.expr e ⟨start, stop⟩) (.expr e' ⟨start', stop'⟩) := by
  rw [SameItem, Line.map, Line.map, Span.map, Span.map, p.view_eq hstart, p.view_eq hstop, h,
    Expr.mapText_id]

theorem sameItem_comment (text : Text) :
    p.SameItem (.comment text ⟨start, stop⟩) (.comment text ⟨start', stop'⟩) := by
  rw [SameItem, Line.map, Line.map, Span.map, Span.map, p.view_eq hstart, p.view_eq hstop]

end Places

theorem SameItem.cons {l l' : Line} {lines lines' : Block} (hl : p.SameItem l l')
    (h : p.SameBlock lines lines') : p.SameBlock (l :: lines) (l' :: lines') := by
  rw [SameBlock, Block.map_cons, Block.map_cons, hl, h]

theorem SameBlock.reverse {lines lines' : Block} (h : p.SameBlock lines lines') :
    p.SameBlock lines.reverse lines'.reverse := by
  rw [SameBlock, Block.map_reverse, Block.map_reverse, h]

theorem SameBlock.append {lines lines' more more' : Block} (h : p.SameBlock lines lines')
    (hmore : p.SameBlock more more') : p.SameBlock (lines ++ more) (lines' ++ more') := by
  rw [SameBlock, Block.map_append, Block.map_append, h, hmore]

/-- The same lines are comments. -/
theorem SameBlock.all_isComment {lines lines' : Block} (h : p.SameBlock lines lines') :
    lines'.all Line.isComment = lines.all Line.isComment := by
  have hmap : ∀ (f : Text → Text) (view : Location → Location) (block : Block),
      (block.map f view).all Line.isComment = block.all Line.isComment := by
    intro f view block
    rw [Block.map, List.all_map]
    exact congrArg block.all (funext fun l => Line.isComment_map f view l)
  rw [← hmap id p.view' lines', ← hmap p.quoted p.view lines, h]

end TokenPairing

namespace Pairing

variable {p : Pairing} {room n : Nat} {c c' : Cursor}

/-! ### Lines -/

/-- A comment on a line of its own. -/
theorem pairs_commentLine
    (hc : p.inside [] (c.advanceBy c.ahead.gapLength) (c'.advanceBy c'.ahead.gapLength))
    (hcomment : c.ahead.isCommentLine = true) :
    Pairs p.reports room 0 Script.commentLine Script.commentLine c c' fun l l' d d' =>
      p.SameItem l l' ∧ p.Ended d d' := by
  have hread : Pairs p.reports room 0 Script.commentLine Script.commentLine c c' fun l l' d d' =>
      p.SameItem l l' ∧ p.inside [] d d' := by
    refine Pairs.bind (Q := fun _ _ d d' => p.inside [] d d') (pairs_read (.took hc)) ?_
    rintro _ _ d d' hd
    refine pairs_here_bind ((p.carries_comment d d' hd).bind ?_)
    rintro text _ e e' ⟨rfl, he⟩
    have hsame := TokenPairing.sameItem_comment (p.place_inside hd) (p.place_inside he) (text.getD [])
    exact pairs_here_bind (pairs_pure ⟨hsame, he⟩)
  -- behind the comment the line ends, in one text and so in the other one
  refine (hread.and_yields (Script.yields_commentLine_atLineEnd hcomment)
    (yields_reaches room _ c')).mono ?_
  exact fun l l' d d' h => ⟨h.1.1, h.1.2, h.2.1.1⟩

/-- A semicolon is taken in both texts, or in none of them. -/
theorem carries_semicolon :
    Carries p.reports room n (p.inside []) (consume ";" : Grammar Rule Bool) (consume ";") Eq
      (p.inside []) := by
  intro c c' hc
  refine pairs_read ?_
  rw [Reader.consume, Reader.takeIf, Reader.takeIf,
    (p.sameStart hc).isPrefixOf (s := ";") rfl (u := 0x3B) (by decide)]
  split
  · next hprefix =>
    exact .took ⟨rfl, p.plain hc (Text.startsPlain_of_isPrefixOf (by decide) hprefix)⟩
  · exact .took ⟨rfl, hc⟩

/-- What is found in both texts, with the places where it starts and ends. -/
theorem pairs_spanned {α : Type} {g g' : Grammar Rule α} {V : α → α → Prop} {item : α → Span → Line}
    {start start' : Location}
    (hitem : ∀ {start start' stop stop' : Location} {v v' : α}, p.reports.place start start' →
      p.reports.place stop stop' → V v v' → p.SameItem (item v ⟨start, stop⟩) (item v' ⟨start', stop'⟩))
    (hstart : p.reports.place start start')
    (hg : Pairs p.reports room 0 g g' c c' (p.Agrees V (p.inside []))) :
    Pairs p.reports room 0 (Script.spanned g item start) (Script.spanned g' item start') c c'
      (p.Agrees p.SameItem (p.inside [])) := by
  refine pairs_agrees_bind hg (fun v v' d d' hv hd => ?_) fun _ _ _ _ hd =>
    pairs_here_bind (pairs_pure hd)
  exact pairs_here_bind (pairs_pure (.inl ⟨hitem hstart (p.place_inside hd) hv, hd⟩))

section Rules

variable (hrules : p.BlockCarry room)

include hrules

/-- A declaration, a statement or an expression, with the places where it starts and ends. -/
theorem pairs_lineItem {indent : Nat} (hwhole : p.IsWhole indent c) (hc : p.inside [] c c') :
    Pairs p.reports room 0 (Script.lineItem indent) (Script.lineItem (p.width indent)) c c'
      (p.Agrees p.SameItem (p.inside [])) := by
  have hexpr : Pairs p.reports room 0 Expression.expr Expression.expr c c'
      (p.Agrees p.SameExpr (p.inside [])) :=
    (TokenPairing.carries_expr (p.plainCarry room) c c' hc).mono fun _ _ _ _ => .inl
  have hstart := p.place_inside hc
  rw [Script.lineItem_eq, Script.lineItem_eq]
  exact pairs_here_bind (pairs_choice (List.cons_ne_nil _ _) <|
    .cons (pairs_spanned (fun h h' hsame => TokenPairing.sameItem_decl h h' hsame) hstart
      (hrules (.decl indent) c c' hc)) <|
    .cons (pairs_spanned (fun h h' hsame => TokenPairing.sameItem_stmt h h' hsame) hstart
      (hrules (.stmt indent) c c' ⟨hwhole, hc⟩)) <|
    .cons (pairs_spanned (fun h h' hsame => TokenPairing.sameItem_expr h h' hsame) hstart hexpr) .nil)

theorem pairs_lineTurn {indent : Nat} (hindent : 0 < indent ∨ p.fresh) {items items' : Block}
    (h : p.Agrees p.SameBlock (p.inside []) items items' c c') :
    Pairs p.reports room 0 (Script.lineTurn indent items) (Script.lineTurn (p.width indent) items')
      c c' (Next.Pairs (p.Agrees p.SameBlock (p.inside [])) (p.Agrees p.SameBlock (p.inside []))) := by
  -- both turns go on alike, or the first text has ended and both only go to the end
  rcases h with ⟨hitems, hc⟩ | hspent
  · refine (p.carries_skipSpaces c c' hc).bind fun _ _ c c' hc => ?_
    refine (p.carries_comment c c' hc.2).bind fun _ _ c c' hc => pairs_look_bind ?_
    rw [(p.sameStart hc.2).atLineEnd]
    split
    · exact pairs_pure (.inl ⟨hitems, hc.2⟩)
    refine (carries_semicolon c c' hc.2).bind ?_
    rintro semicolon _ c c' ⟨rfl, hc⟩
    split
    · refine (p.carries_skipSpaces c c' hc).bind fun _ _ c c' hc => pairs_look_bind ?_
      rw [(p.sameStart hc.2).atLineEnd,
        (p.sameStart hc.2).isPrefixOf (s := "#") rfl (u := CodeUnit.hash) (by decide)]
      split
      · exact pairs_pure (.inl ⟨hitems, hc.2⟩)
      · refine (pairs_lineItem hrules (.inl hindent) hc.2).bind fun item item' d d' hitem => pairs_pure ?_
        exact hitem.imp_left fun h => ⟨TokenPairing.SameItem.cons h.1 hitems, h.2⟩
    · exact (p.carries_expected _ (V := fun _ _ => False) (B := fun _ _ => False) c c' hc).mono
        fun _ _ _ _ h => h.1.elim
  · -- in front of the end of a line a turn takes nothing
    refine pairs_of_stays hspent.journal
      (Script.stays_lineTurn indent items hspent.isQuiet.atLineEnd)
      (Script.stays_lineTurn (p.width indent) items' hspent.isQuiet'.atLineEnd) ?_
    rintro _ _ _ _ ⟨rfl, rfl⟩ ⟨rfl, rfl⟩
    exact .inr hspent

theorem pairs_line {indent : Nat} (hindent : 0 < indent ∨ p.fresh) (hc : p.inside [] c c') :
    Pairs p.reports room 0 (Script.line indent) (Script.line (p.width indent)) c c'
      (p.Agrees p.SameBlock p.Ended) := by
  have hturn := Script.turnsAdvance_lineTurn room indent
  have hturn' := Script.turnsAdvance_lineTurn room (p.width indent)
  have hline : Pairs p.reports room 0 (Script.line indent) (Script.line (p.width indent)) c c'
      (p.Agrees p.SameBlock (p.inside [])) := by
    rw [Script.line_eq, Script.line_eq]
    refine (pairs_lineItem hrules (.inl hindent) hc).bind fun first first' d d' hfirst => ?_
    have hitems : p.Agrees p.SameBlock (p.inside []) [first] [first'] d d' :=
      hfirst.imp_left fun h => ⟨TokenPairing.SameItem.cons h.1 rfl, h.2⟩
    refine (Pairs.loop hturn hturn' hitems fun _ _ _ _ h => pairs_lineTurn hrules hindent h).bind
      fun items items' e e' h => pairs_pure ?_
    exact h.imp_left fun h => ⟨TokenPairing.SameBlock.reverse h.1, h.2⟩
  -- the line is read up to its end
  refine (hline.and_yields (Script.yields_line_atLineEnd indent c)
    (yields_reaches room _ c')).mono ?_
  exact fun v v' d d' h => h.1.imp_left fun hv => ⟨hv.1, hv.2, h.2.1⟩

/-! ### Blocks -/

omit hrules in
/-- The lines so far, and the end of the last one. -/
def LinesSoFar (p : Pairing) (lines lines' : Block) (c c' : Cursor) : Prop :=
  p.SameBlock lines lines' ∧ p.between c c' ∧ (lines ≠ [] → p.Ended c c')

omit hrules in
theorem LinesSoFar.of_ended {lines lines' : Block} (hlines : p.SameBlock lines lines')
    (hc : p.Ended c c') : p.LinesSoFar lines lines' c c' :=
  ⟨hlines, hc.between, fun _ => hc⟩

omit hrules in
/-- Lines are found in both texts, or nothing is found. -/
def NextLine (p : Pairing) : Option (List Line) → Option (List Line) → Cursor → Cursor → Prop
  | none, none, _, _ => True
  | some items, some items', c, c' => p.Agrees p.SameBlock p.Ended items items' c c'
  | _, _, _, _ => False

omit hrules in
/-- The same line is next, apart from a line that only the second text goes on with. -/
theorem lineKind_eq {level : Nat} (h : c.ahead ≠ []) (h' : c'.ahead ≠ [])
    (hwidth : c'.ahead.indentation = p.width c.ahead.indentation)
    (hcode : p.inside [] (c.advanceBy c.ahead.indentation) (c'.advanceBy c'.ahead.indentation)) :
    Script.lineKind (p.width level) c'.ahead = Script.lineKind level c.ahead := by
  have hline := p.sameStart hcode
  rw [Cursor.ahead_advanceBy, Cursor.ahead_advanceBy] at hline
  have hlevel : (c'.ahead.indentation == p.width level) = (c.ahead.indentation == level) := by
    rw [hwidth, Bool.eq_iff_iff, beq_iff_eq, beq_iff_eq]
    exact ⟨p.width_inj, congrArg p.width⟩
  have hsome : c'.ahead.isEmpty = c.ahead.isEmpty := by
    rw [List.isEmpty_eq_false_iff.mpr h, List.isEmpty_eq_false_iff.mpr h']
  rw [Script.lineKind, Script.lineKind, hsome, Text.isCommentLine_eq hline, hlevel]

omit hrules in
/-- Behind the indentation of a line there may be further spaces and tabs. -/
theorem inside_behindGap
    (hcode : p.inside [] (c.advanceBy c.ahead.indentation) (c'.advanceBy c'.ahead.indentation)) :
    p.inside [] (c.advanceBy c.ahead.gapLength) (c'.advanceBy c'.ahead.gapLength) := by
  have hgap := p.spaces hcode
  rw [Cursor.advanceBy_advanceBy, Cursor.advanceBy_advanceBy, Cursor.ahead_advanceBy,
    Cursor.ahead_advanceBy, ← Text.gapLength_eq c.ahead, ← Text.gapLength_eq c'.ahead] at hgap
  exact hgap

omit hrules in
/-- A line that only the second text goes on with does not belong to a block within another one. -/
theorem lineKind_beyond {level : Nat} (hlevel : 0 < level) (h' : c'.ahead ≠ [])
    (hforeign : c'.ahead.nextCode.IsForeign p.fresh)
    (hline : Script.LineAt (p.width level) (Script.lineKind (p.width level) c'.ahead) c'.ahead)
    (hcomment : c'.ahead.isCommentLine = false) :
    Script.lineKind (p.width level) c'.ahead = .misplaced := by
  -- what lies beyond stands at the left edge, or is what may not open a line
  have hcode : c'.ahead.isEmptyLine = false → c'.ahead.indentation = 0 := by
    intro hempty
    rw [Text.nextCode_of_isEmptyLine_eq_false hempty] at hforeign
    exact (hforeign.resolve_left h').1
  generalize Script.lineKind (p.width level) c'.ahead = kind at hline ⊢
  generalize c'.ahead = t at *
  cases hline with
  | ended => exact absurd rfl h'
  | comment h =>
    rw [h] at hcomment
    exact Bool.noConfusion hcomment
  | code h hwidth =>
    rw [hcode h] at hwidth
    exact absurd hwidth (Nat.ne_of_lt (p.width_pos hlevel))
  | misplaced => rfl

/-- The line that is next in both texts. -/
theorem pairs_nextLine {level : Nat} (hlevel : 0 < level ∨ p.fresh) (required : Bool)
    {d d' : Cursor} (hline : Script.LineAt level (Script.lineKind level d.ahead) d.ahead)
    (hwidth : d'.ahead.indentation = p.width d.ahead.indentation)
    (hcode : p.inside [] (d.advanceBy d.ahead.indentation) (d'.advanceBy d'.ahead.indentation)) :
    Pairs p.reports room 0 (Script.nextLine level required (Script.lineKind level d.ahead))
      (Script.nextLine (p.width level) required (Script.lineKind level d.ahead)) d d' p.NextLine := by
  generalize Script.lineKind level d.ahead = kind at hline ⊢
  generalize ht : d.ahead = t at hline
  cases hline with
  | ended => exact pairs_pure trivial
  | comment h _ =>
    rw [← ht] at h
    refine (pairs_commentLine (inside_behindGap hcode) h).bind ?_
    rintro l l' e e' ⟨hl, he⟩
    exact pairs_pure (.inl ⟨TokenPairing.SameItem.cons hl rfl, he⟩)
  | misplaced h _ =>
    have hsame := p.sameStart hcode
    have hplace := p.place_inside hcode
    rw [Cursor.ahead_advanceBy, Cursor.ahead_advanceBy] at hsame
    refine Pairs.bind (Q := fun _ _ _ _ => True) (pairs_note
      (p.complaint_indentation hwidth hsame) ?_ trivial) fun _ _ _ _ _ => pairs_pure trivial
    simpa [Complaint.indentation] using hplace
  | code h hindent =>
    rw [← ht] at hindent
    rw [hwidth, hindent] at hcode
    have hline : Pairs p.reports room 0 (call (Rule.line level)) (call (Rule.line (p.width level)))
        (d.advanceBy level) (d'.advanceBy (p.width level)) (p.Agrees p.SameBlock p.Ended) :=
      hrules (.line level) _ _ ⟨hlevel, hcode⟩
    refine Pairs.bind (Q := fun _ _ e e' => e = d.advanceBy level ∧
      e' = d'.advanceBy (p.width level)) (pairs_read (.took ⟨rfl, rfl⟩)) ?_
    rintro _ _ e e' ⟨rfl, rfl⟩
    -- the first line of a block has to parse, and the failure of a later one is only noted
    split
    · exact hline.bind fun items items' e e' h => pairs_pure h
    · exact Pairs.attempt hline trivial

omit hrules in
/-- Where only the first text ends, the line that the other one goes on with is noted at most. -/
def StopsAlike (p : Pairing) (level : Nat) (c c' : Cursor) : Prop :=
  (Script.passOver level c).ahead = [] → (Script.passOver (p.width level) c').ahead ≠ [] →
    0 < level ∧ (Script.passOver (p.width level) c').ahead.isCommentLine = false

/-- The next line of a block, behind the lines that it passes over. -/
theorem pairs_blockLine {level : Nat} (hlevel : 0 < level ∨ p.fresh) (required : Bool)
    (hover : p.between (Script.passOver level c) (Script.passOver (p.width level) c'))
    (hstops : p.StopsAlike level c c') :
    Pairs p.reports room 0 (Script.blockLine level required)
      (Script.blockLine (p.width level) required) c c' fun found found' d d' =>
        p.NextLine found found' d d' ∧ (found = none → d = c ∧ d' = c') := by
  have hline := Script.lineAt_passOver level c
  have hline' := Script.lineAt_passOver (p.width level) c'
  have hnext : Pairs p.reports room 0
      (Script.nextLine level required (Script.lineKind level (Script.passOver level c).ahead))
      (Script.nextLine (p.width level) required
        (Script.lineKind (p.width level) (Script.passOver (p.width level) c').ahead))
      (Script.passOver level c) (Script.passOver (p.width level) c') p.NextLine := by
    unfold StopsAlike at hstops
    generalize Script.passOver level c = d, Script.passOver (p.width level) c' = d'
      at hover hline hline' hstops
    cases p.opens hover with
    | ended h h' =>
      rw [h, h']
      exact pairs_pure trivial
    | beyond hloose h h' hforeign =>
      -- what the second text goes on with is noted there as misplaced, which the reports allow
      obtain ⟨hpos, hcomment⟩ := hstops h h'
      have hended : Script.lineKind level d.ahead = .ended := by
        rw [h]
        rfl
      rw [hended, lineKind_beyond hpos h' hforeign hline' hcomment]
      refine pairs_pure_note (fun _ _ => ?_) trivial
      rw [hloose]
      trivial
    | line h h' hwidth hcode _ _ =>
      rw [lineKind_eq h h' hwidth hcode]
      exact pairs_nextLine hrules hlevel required hline hwidth hcode
  rw [Script.blockLine_eq, Script.blockLine_eq]
  refine Pairs.optional (Pairs.bind (Q := fun _ _ d d' => d = Script.passOver level c ∧
    d' = Script.passOver (p.width level) c') (pairs_read (.took ⟨rfl, rfl⟩)) ?_)
    ⟨trivial, fun _ => ⟨rfl, rfl⟩⟩
  rintro _ _ d d' ⟨rfl, rfl⟩
  refine pairs_look_bind (hnext.mono fun found found' d d' h => ?_)
  match found, found', h with
  | none, none, _ => exact .inl ⟨rfl, rfl⟩
  | some items, some items', h => exact .inr ⟨items, items', rfl, rfl, h, fun hnone => by cases hnone⟩

theorem pairs_blockTurn {level : Nat} (hlevel : 0 < level ∨ p.fresh) (required : Bool)
    {lines lines' : Block} (h : p.LinesSoFar lines lines' c c') (hstops : p.StopsAlike level c c') :
    Pairs p.reports room 0 (Script.blockTurn level required lines)
      (Script.blockTurn (p.width level) required lines') c c'
      (Next.Pairs (p.Agrees p.SameBlock p.Ended) p.LinesSoFar) := by
  obtain ⟨hlines, hc, hended⟩ := h
  rw [Script.blockTurn, Script.blockTurn, TokenPairing.SameBlock.all_isComment hlines]
  refine (pairs_blockLine hrules hlevel _ (p.between_passOver level hc) hstops).bind ?_
  rintro found found' d d' ⟨hfound, hstays⟩
  -- both texts have a further line, or none of them has
  cases found with
  | none =>
    cases found' with
    | none =>
      obtain ⟨rfl, rfl⟩ := hstays rfl
      exact pairs_pure ⟨hlines, hc, hended⟩
    | some items' => exact hfound.elim
  | some items =>
    cases found' with
    | none => exact hfound.elim
    | some items' =>
      refine pairs_pure (Or.imp_left (fun h => ⟨?_, h.2⟩) hfound)
      exact TokenPairing.SameBlock.append (TokenPairing.SameBlock.reverse h.1) hlines

omit hrules in
/-- Lines that are taken where nothing is gone on with do not matter. -/
theorem pairs_blockTurns_spent {level : Nat} (hlevel : 0 < level) (required : Bool)
    (lines lines' : Block) (h : p.Spent c c') :
    Pairs p.reports room 0 (iterate (Script.blockTurn level required) lines)
      (iterate (Script.blockTurn (p.width level) required) lines') c c' fun _ _ => p.Spent := by
  refine pairs_of_stays h.journal
    (Script.stays_blockTurns required lines h.isQuiet.atLineEnd
      (.inr (h.isQuiet.indentation_ne hlevel)))
    ((Script.stays_blockTurns required lines' h.isQuiet'.atLineEnd
      (.inr (h.isQuiet'.indentation_ne (p.width_pos hlevel)))).and_yields (yields_reaches room _ c')) ?_
  rintro _ _ d _ ⟨hend, hnext⟩ ⟨⟨hend', hnext'⟩, k, -, rfl⟩
  exact ⟨h.journal, p.gone_advanceBy h.gone k, ⟨hend, hnext ▸ h.isQuiet.isForeign⟩, hend',
    hnext' ▸ h.isQuiet'.isForeign⟩

omit hrules in
/-- Where only the first text ends, a comment of the other one is taken. -/
theorem pairs_blockTurns_beyond {level : Nat} (hlevel : 0 < level) (required : Bool)
    (lines lines' : Block) (hc : p.Ended c c') (hended : (Script.passOver level c).ahead = [])
    (hcomment : (Script.passOver (p.width level) c').ahead.isCommentLine = true) :
    Pairs p.reports room 0 (iterate (Script.blockTurn level required) lines)
      (iterate (Script.blockTurn (p.width level) required) lines') c c' fun _ _ => p.Spent := by
  have hempty : (Script.passOver (p.width level) c').ahead.isEmptyLine = true := by
    rw [Text.isEmptyLine, hcomment, Bool.or_true]
  have hnext : c.ahead.nextCode = [] := by
    rw [← Script.nextCode_passOver level c, hended]
    rfl
  have hend' : c'.ahead.atLineEnd = true := (p.sameStart hc.inside).atLineEnd.trans hc.2
  -- the first text has ended and the other one has not, so the rest of it lies beyond
  cases p.opens (p.between_passOver level hc.between) with
  | ended _ h' =>
    rw [h'] at hcomment
    exact absurd hcomment (by decide)
  | line h => exact absurd hended h
  | beyond hloose _ h' hforeign _ hgone =>
    rw [Script.nextCode_passOver] at hforeign
    have hquiet : c.IsQuiet p.fresh := ⟨hc.2, .inl hnext⟩
    have hquiet' : c'.IsQuiet p.fresh := ⟨hend', hforeign⟩
    have hjournal : ∀ j j', p.reports.journal j j' := by
      rw [hloose]
      exact fun _ _ => trivial
    -- both loops stop in front of what lies beyond, behind the comments of the second text
    refine pairs_of_stays hjournal (Script.stays_blockTurns required lines hc.2 (.inl hnext))
      ((Script.stays_blockTurns required lines' hend'
        (.inr (hquiet'.indentation_ne (p.width_pos hlevel)))).and_yields
          (Script.yields_blockTurns_comment required lines' hcomment)) ?_
    rintro _ _ d _ ⟨hd, hnext⟩ ⟨⟨hd', hnext'⟩, k, hk, rfl⟩
    exact ⟨hjournal, hgone hempty k hk, ⟨hd, hnext ▸ hquiet.isForeign⟩, hd',
      hnext' ▸ hquiet'.isForeign⟩

/-- The lines of a block within another one, in front of a line of code. -/
theorem pairs_block {level : Nat} (hlevel : 0 < level) (required : Bool) (hc : p.between c c')
    (hne : c.ahead.nextCode ≠ []) :
    Pairs p.reports room 0 (Script.block level required) (Script.block (p.width level) required) c c'
      fun lines lines' d d' => p.LinesSoFar lines lines' d d' ∨ p.Spent d d' := by
  have hturn := Script.turnsAdvance_blockTurn room level required
  have hturn' := Script.turnsAdvance_blockTurn room (p.width level) required
  rw [Script.block_eq, Script.block_eq]
  -- the lines go together until the first text ends
  refine Pairs.bind (Q := fun lines lines' d d' => p.LinesSoFar lines lines' d d' ∨ p.Spent d d')
    (Pairs.loop_beyond (I := fun lines lines' d d' => (p.LinesSoFar lines lines' d d' ∧
      (d.ahead.nextCode = [] → p.Ended d d')) ∨ p.Spent d d') hturn hturn'
        (.inl ⟨⟨rfl, hc, fun h => absurd rfl h⟩, fun hnil => absurd hnil hne⟩) ?_) ?_
  · rintro lines lines' d d' (⟨hlines, hended⟩ | hspent)
    · by_cases hstops : p.StopsAlike level d d'
      · refine .inl ((pairs_blockTurn hrules (.inl hlevel) required hlines hstops).mono ?_)
        rintro (z | z) (z' | z') e e' hnext
        · exact hnext.imp_left fun h => ⟨.of_ended h.1 h.2, fun _ => h.2⟩
        · exact hnext
        · exact hnext
        · exact .inl hnext
      · -- only the first text has ended, in front of a comment of the other one
        simp only [StopsAlike, Classical.not_imp, hlevel, true_and, Bool.not_eq_false] at hstops
        obtain ⟨hnil, -, hcomment⟩ := hstops
        have hd : p.Ended d d' := hended (by
          rw [← Script.nextCode_passOver level d, hnil]
          rfl)
        exact .inr ((pairs_blockTurns_beyond hlevel required lines lines' hd hnil hcomment).mono
          fun _ _ _ _ he => .inr he)
    · exact .inr ((pairs_blockTurns_spent hlevel required lines lines' hspent).mono
        fun _ _ _ _ he => .inr he)
  · rintro lines lines' d d' (⟨hlines, hd, hended⟩ | hspent)
    · exact pairs_pure (.inl ⟨TokenPairing.SameBlock.reverse hlines, hd,
        fun hne => hended (by simpa using hne)⟩)
    · exact pairs_pure (.inr hspent)

/-- The block that a header governs. -/
theorem pairs_indentedBlock (header : Nat) (hc : p.inside [] c c') :
    Pairs p.reports room 0 (Script.indentedBlock header) (Script.indentedBlock (p.width header)) c c'
      (p.Agrees p.SameBlock p.Ended) := by
  refine ((carries_blockOpening header c c' hc).and_yields
    (Statement.yields_blockOpening_ahead header c) (yields_reaches room _ c')).bind ?_
  rintro level _ d d' ⟨⟨⟨rfl, hlevel⟩, hd⟩, ⟨hne, hwidth⟩, -⟩
  -- the level was taken from a line of code, so the block has a line and the cursors are behind it
  have hsome : Yields room (call (Rule.block level true)) d fun lines _ => lines ≠ [] :=
    yields_call fun _ => Script.yields_block_ne_nil hne hwidth
  refine ((hrules (.block level true) d d' ⟨hlevel, hd, hne⟩).and_yields hsome
    (yields_reaches room _ d')).mono ?_
  rintro lines lines' e e' ⟨hlines, hne, -⟩
  exact hlines.imp_left fun h => ⟨h.1, h.2.2 hne⟩

/-! ### Every rule -/

/-- The bodies of the rules that read blocks go alike, when the rules do that they call. -/
theorem pairs_blockBody {α : Type} (rule : Rule α) (c c' : Cursor) (h : p.Enters rule c c') :
    Pairs p.reports room 0 rule.body (p.blockRule rule).body c c' fun v v' d d' =>
      p.Found rule v v' ∧ p.Leaves rule v d d' ∨ p.Spent d d' := by
  -- the rules that read no block are not entered here
  cases rule with
  | block level required => exact pairs_block hrules h.1 required h.2.1 h.2.2
  | indentedBlock header => exact pairs_indentedBlock hrules header h
  | line indent => exact pairs_line hrules h.1 h.2
  | decl indent => exact pairs_decl hrules indent h
  | functionDecl indent => exact pairs_functionDecl hrules indent h
  | classDecl indent => exact pairs_classDecl hrules indent h
  | stmt indent => exact pairs_stmt hrules h.1 h.2
  | ifStmt indent => exact pairs_ifStmt hrules h.1 h.2
  | elifBranch indent => exact pairs_elifBody hrules indent h
  | elseBranch indent => exact pairs_elseBody hrules indent h
  | whileStmt indent => exact pairs_whileStmt hrules indent h
  | forStmt indent => exact pairs_forStmt hrules indent h
  | matchStmt indent => exact pairs_matchStmt hrules indent h
  | matchCase indent => exact pairs_call_condition hrules indent h
  | condition indent => exact pairs_condition hrules indent h
  | _ => exact h.elim

end Rules

/-- Where a rule is entered the places go together. -/
theorem place_enters {α : Type} (rule : Rule α) (c c' : Cursor) (h : p.Enters rule c c') :
    p.reports.place c.location c'.location := by
  cases rule with
  | block => exact p.place_between h.2.1
  | line | stmt | ifStmt => exact p.place_inside h.2
  | indentedBlock | decl | functionDecl | classDecl | elifBranch | elseBranch | whileStmt | forStmt
  | matchStmt | matchCase | condition => exact p.place_inside h
  | _ => exact h.elim

/-- All rules that read blocks go alike, with any room. -/
theorem blockCarry (p : Pairing) (room : Nat) : p.BlockCarry room :=
  fun rule c c' h => pairs_call_of_bodies (fun _ : Unit => 0)
    (E := fun rule _ c c' => p.Enters rule c c')
    (S := fun rule _ v v' d d' => p.Found rule v v' ∧ p.Leaves rule v d d' ∨ p.Spent d d')
    p.label_blockRule (fun rule _ c c' h => place_enters rule c c' h)
    (fun _ hrules _ rule _ c c' h =>
      pairs_blockBody (fun rule c c' h => hrules rule () c c' h) rule c c' h)
    room rule () c c' h

end Pairing

end GDScript
