import GDScript.Proofs.Pairing.Sliced
import GDScript.Proofs.Script.RoundTrip

/-!
# Lines that are read alone

The slice of a line at the top of a script is a script of this one line (`Script.exists_parse_slice`).
An item of a line is read alone as soon as nothing more of it stands behind it and, if it ends its
line, the next line of code is not indented (`Script.ItemAt.isAlone`). That is known of an item only
when the line goes on or ends behind it, so the last item of a line waits for what stands behind the line
(`Script.ItemsSoFar`, `Script.Unindented`); behind the whole script there is no code at all.
-/

namespace GDScript

open Grammar
open Text (IsGap IsIdle IsIdleLine)

/-! ### Scripts of one line -/

/-- What a text goes on with decides whether its first line is empty, unless the text is a gap. -/
theorem Text.isEmptyLine_append {s t : Text} (hgap : ¬IsGap false s) :
    Text.isEmptyLine (s ++ t) = s.isEmptyLine := by
  have hne : s.dropWhile CodeUnit.isSpace ≠ [] := fun hnil =>
    hgap (List.dropWhile_eq_nil_iff.mp hnil)
  obtain ⟨u, rest, hrest⟩ := List.exists_cons_of_ne_nil hne
  rw [isEmptyLine, isEmptyLine, isBlankLine, isBlankLine, isCommentLine, isCommentLine,
    dropWhile_append_of_dropWhile hne, hrest]
  rfl

/-- A text starts with fewer spaces than a longer one at most. -/
theorem Text.indentation_le_append (s t : Text) : s.indentation ≤ Text.indentation (s ++ t) := by
  induction s with
  | nil => exact Nat.zero_le _
  | cons u s ih =>
    rw [indentation, indentation, List.cons_append, List.takeWhile_cons, List.takeWhile_cons]
    split
    · exact Nat.succ_le_succ ih
    · exact Nat.le_refl _

namespace Script

variable {room : Nat} {source s : Text} {l : Line} {start c d : Cursor}

/-- A line of code that is not indented, up to the end of the text. -/
theorem takes_blockLine_alone {P : List Line → Prop} (hcode : s.isEmptyLine = false)
    (hzero : s.indentation = 0) (h : Takes room 0 (line 0) s [] P) :
    Takes (room + 1) 0 (blockLine 0 false) s [] fun found => ∃ v, found = some v ∧ P v := by
  -- a line of code is neither passed over nor dropped
  have hpassed : isPassedOver 0 s = false := by
    rw [← Bool.not_eq_true]
    intro hpassed
    rw [isEmptyLine_of_isPassedOver hpassed] at hcode
    exact Bool.noConfusion hcode
  have hdrop : Text.droppedLength (isPassedOver 0) false s = 0 :=
    Cursor.droppedLength_eq_zero (.inr hpassed)
  have hcomment : s.isCommentLine = false := by
    rw [Text.isEmptyLine, Bool.or_eq_false_iff] at hcode
    exact hcode.2
  refine takes_optional (Takes.bind (s := []) (takes_skipPassedOver ?_) fun _ _ => ?_)
  · rwa [List.nil_append, List.append_nil]
  · refine Takes.look_bind (takes_look (P := (· = .code)) ?_) ?_
    · rw [List.append_nil, lineKind, hcomment, hzero]
      have hsome : s.isEmpty = false := by
        rw [List.isEmpty_eq_false_iff]
        rintro rfl
        exact absurd hcode (by decide)
      rw [hsome]
      rfl
    · rintro _ rfl
      refine Takes.bind (s := []) (takes_read (P := fun _ => True) (v := ()) rfl trivial) fun _ _ => ?_
      exact takes_attempt (takes_call h)

/-- A block of one line, up to the end of the text. -/
theorem takes_block_alone (hne : s ≠ [])
    (h : Takes room 0 (blockLine 0 false) s [] fun found =>
      ∃ v, found = some v ∧ Block.bare v = [l.bare]) :
    Takes (room + 1) 0 (call (Rule.block 0 false)) s [] fun lines => Block.bare lines = [l.bare] := by
  refine takes_call ?_
  change Takes room 0 (Script.block 0 false) s [] _
  have hended : Text.Ahead (fun v => ¬True ∨ v < 0) (fun v _ => v < 0) [] :=
    .ended (f := []) (l := []) .nil (.blank (Text.isGap_nil false))
  -- behind the line the text ends, so the second turn finds nothing
  have hdone : Loops room 0 (blockTurn 0 false) [] [] (fun x : Block => Block.bare x = [l.bare]) _ :=
    Piece.loops_blockTurn_done trivial hended
  have hloops : Loops room 0 (blockTurn 0 false) (s ++ []) [] (· = ([] : Block))
      fun x => Block.bare x = [l.bare] := by
    refine Loops.again (fun x hx => ?_) hne hdone
    subst hx
    refine Takes.bind_done h ?_
    rintro _ ⟨v, rfl, hv⟩
    refine takes_pure ⟨_, rfl, ?_⟩
    rw [Block.bare_append, Block.bare_reverse, hv]
    rfl
  rw [List.append_nil] at hloops
  rw [block_eq]
  refine Takes.bind_done (hloops.takes rfl) fun lines hlines => takes_pure ?_
  rw [Block.bare_reverse, hlines]
  rfl

/-- The slice of a line is read as a script of this line. -/
def IsAlone (room : Nat) (source : Text) (l : Line) : Prop :=
  Takes room 0 (call (Rule.block 0 false)) (l.span.slice source) [] fun lines =>
    Block.bare lines = [l.bare]

theorem ItemAt.isAlone (h : ItemAt room source start d l)
    (hends : Statement.endsItem (d.ahead.dropWhile CodeUnit.isSpace) = true)
    (hnext : d.ahead.atLineEnd = true → d.ahead.nextCode.indentation = 0) :
    IsAlone (room + 2) source l := by
  have htakes := h.takes_slice hends hnext
  obtain ⟨s, hs, -⟩ := h.of_yieldsIn (yieldsIn_lineItem_closes room start)
  rw [IsAlone, h.slice_eq hs]
  rw [h.slice_eq hs] at htakes
  -- the item is not only a gap, so the slice starts with a line of code as the script does there
  have hgap : ¬IsGap false s := by
    intro hgap
    obtain ⟨v, i, hrun, -⟩ := htakes ⟨[], 0, 0⟩ (Cursor.ofText s) [] rfl (List.append_nil s).symm
    exact yields_lineItem_of_isGap 0 hgap _ _ _ _ _ hrun
  have hcode : s.isEmptyLine = false := by
    rw [← Text.isEmptyLine_append hgap, ← hs]
    exact h.isEmptyLine
  have hzero : s.indentation = 0 := by
    have hindentation := h.indentation
    rw [hs] at hindentation
    exact Nat.le_zero.mp (hindentation ▸ Text.indentation_le_append s d.ahead)
  refine takes_block_alone (fun hnil => hgap (hnil ▸ Text.isGap_nil false))
    (takes_blockLine_alone hcode hzero ?_)
  exact (itemsRead_of_takes rfl htakes).takes

/-- So is a comment. -/
theorem yields_commentLine_isAlone (room : Nat) {room' : Nat} (hc : c.StandsIn source)
    (hcomment : c.ahead.isCommentLine = true) :
    Yields room' commentLine c fun l _ => IsAlone (room + 1) source l := by
  obtain ⟨gap, body, rest, hahead, hgap, hbody, hrest⟩ := Text.exists_of_isCommentLine hcomment
  have hstop := Text.avoids_of_atLineEnd hrest
  refine Yields.bind (P := fun _ c₁ => c₁.StandsIn source ∧ c₁.ahead = CodeUnit.hash :: (body ++ rest))
    (yields_read fun _ n hread => ?_) fun _ c₁ h₁ => yields_here_bind ?_
  · cases hread
    refine ⟨hc.advanceBy _, ?_⟩
    rw [Cursor.ahead_advanceBy, Text.gapLength, Text.drop_length_takeWhile, hahead,
      Text.dropWhile_append hgap (Text.avoids_cons.mpr rfl)]
  refine Yields.bind (P := fun text c₂ => text = some (Text.trim body) ∧ c₂.StandsIn source ∧
    c₂.ahead = rest) (yields_read fun text n hread => ?_) ?_
  · rw [h₁.2, Reader.comment_append hbody hstop] at hread
    cases hread
    refine ⟨rfl, h₁.1.advanceBy _, ?_⟩
    rw [Cursor.ahead_advanceBy, h₁.2, ← List.cons_append, List.drop_left]
  · rintro _ c₂ ⟨rfl, hstands, hend⟩
    refine yields_here_bind (yields_pure ?_)
    -- the stretch of the line is the comment, without the gap in front of it
    have hslice : Span.slice source ⟨c₁.location, c₂.location⟩ = CodeUnit.hash :: body :=
      h₁.1.slice_eq hstands (by rw [h₁.2, hend]; rfl)
    rw [IsAlone, Line.span, hslice]
    exact takes_block_alone (List.cons_ne_nil _ _) (takes_blockLine_comment (f := []) (g := [])
      (fun _ hv => hv) .nil (Text.isGap_nil false) rfl hbody rfl _)

/-! ### The items of a line -/

theorem yieldsIn_lineItem_itemAt (hc : c.StandsIn source) (hcode : c.ahead.isEmptyLine = false)
    (hzero : c.ahead.indentation = 0) :
    YieldsIn room 0 (lineItem 0) c fun l d => ItemAt room source c d l :=
  fun scope journal _ _ journal' hscope hrun =>
    ⟨hc, hcode, hzero, scope, journal, journal', hscope, hrun⟩

/-- The items so far are read alone, up to the last one, behind which the cursor may stand. -/
def ItemsSoFar (room : Nat) (source : Text) (items : List Line) (c : Cursor) : Prop :=
  c.StandsIn source ∧
    ∀ l ∈ items, IsAlone (room + 2) source l ∨ ∃ start, ItemAt room source start c l

/-- The last item is read alone as well, unless what follows the line belongs to it. -/
def Unindented (room : Nat) (source : Text) (lines : List Line) (c : Cursor) : Prop :=
  c.StandsIn source ∧ (c.ahead.nextCode.indentation = 0 → ∀ l ∈ lines, IsAlone room source l)

/-- Behind a gap, what is neither the end of the line nor a comment is a line of code. -/
theorem isEmptyLine_behindGap {t : Text} (hspace : t.Avoids CodeUnit.isSpace)
    (hends : (t.atLineEnd || List.isPrefixOf ("#" : Text) t) = false) :
    t.isEmptyLine = false ∧ t.indentation = 0 := by
  rw [Bool.or_eq_false_iff] at hends
  -- code is next: no line ends there, and no comment starts
  cases t with
  | nil => exact absurd hends.1 (by decide)
  | cons u t =>
    have hhash : (u == CodeUnit.hash) = false := by
      rw [← Bool.not_eq_true, beq_iff_eq]
      rintro rfl
      exact Bool.noConfusion (hends.2 : true = false)
    have hspaces : (u == CodeUnit.space) = false := by
      have hnot : (u == CodeUnit.space || u == CodeUnit.tab) = false := hspace
      exact (Bool.or_eq_false_iff.mp hnot).1
    rw [Text.isEmptyLine, Text.isBlankLine, Text.isCommentLine, Text.dropWhile_of_avoids hspace,
      Text.indentation, List.takeWhile_cons, hspaces, hends.1]
    simp [hhash]

/-- The gap and the comment behind an item, if it has any. -/
theorem yieldsIn_behindItem {α : Type} {f : Grammar Rule α} {P : α → Cursor → Prop} (hc : c.StandsIn source)
    (h : ∀ d, d.StandsIn source → (c.ahead.atLineEnd = true → d = c) →
      (Statement.endsItem d.ahead = true →
        Statement.endsItem (c.ahead.dropWhile CodeUnit.isSpace) = true) → YieldsIn room 0 f d P) :
    YieldsIn room 0 (skipSpaces >>= fun _ => read Reader.comment >>= fun _ => f) c P := by
  refine YieldsIn.bind (P := fun _ d => d = c.advanceBy c.ahead.gapLength) ((yields_read
    fun _ n hread => ?_).inside 0) ?_
  · cases hread
    rfl
  rintro _ _ rfl
  have hgap : (c.advanceBy c.ahead.gapLength).ahead = c.ahead.dropWhile CodeUnit.isSpace := by
    rw [Cursor.ahead_advanceBy, Text.gapLength, Text.drop_length_takeWhile]
  -- at the end of a line there is no gap, and no comment
  have hsame : c.ahead.atLineEnd = true → c.advanceBy c.ahead.gapLength = c := by
    intro hend
    have hzero : c.ahead.gapLength = 0 :=
      Text.gapLength_append (Text.isGap_nil false) (Text.avoids_isSpace_of_atLineEnd hend)
    rw [hzero, Cursor.advanceBy_zero]
  have hstands := hc.advanceBy c.ahead.gapLength
  generalize c.advanceBy c.ahead.gapLength = c₁ at hgap hsame hstands
  rw [← hgap] at h
  refine YieldsIn.bind (P := fun _ d => d.StandsIn source ∧ (c.ahead.atLineEnd = true → d = c) ∧
    (Statement.endsItem d.ahead = true → Statement.endsItem c₁.ahead = true)) ((yields_read
      fun text n hread => ?_).inside 0) fun _ d hd => h d hd.1 hd.2.1 hd.2.2
  -- a comment is passed over up to the end of the line
  by_cases hhash : c₁.ahead.Avoids (· == CodeUnit.hash)
  · rw [Reader.comment_eq_none hhash] at hread
    cases hread
    exact ⟨hstands, hsame, id⟩
  · refine ⟨hstands.advanceBy n, fun hend => absurd ?_ hhash, fun _ => ?_⟩
    · rw [hsame hend]
      exact Text.avoids_hash_of_atLineEnd hend
    · cases hahead : c₁.ahead with
      | nil => exact absurd (hahead ▸ Text.avoids_nil _) hhash
      | cons u t =>
        rw [hahead, Text.avoids_cons, Bool.not_eq_false, beq_iff_eq] at hhash
        have hprefix : List.isPrefixOf ("#" : Text) (CodeUnit.hash :: t) = true := rfl
        rw [hhash, Statement.endsItem, hprefix, Bool.or_true, Bool.true_or]

theorem yieldsIn_lineTurn (items : List Line) (h : ItemsSoFar room source items c) :
    YieldsIn room 0 (lineTurn 0 items) c fun next d => match next with
      | .again items => ItemsSoFar room source items d
      | .done items => Unindented (room + 2) source items d := by
  obtain ⟨hc, hitems⟩ := h
  refine yieldsIn_behindItem hc fun d hd hsame hends => ?_
  -- the item in front has ended, so it is read alone as it was here
  have halone : Statement.endsItem d.ahead = true →
      (c.ahead.atLineEnd = true → c.ahead.nextCode.indentation = 0) →
        ∀ l ∈ items, IsAlone (room + 2) source l := by
    intro hend hnext l hl
    rcases hitems l hl with halone | ⟨start, hitem⟩
    · exact halone
    · exact hitem.isAlone (hends hend) hnext
  refine yieldsIn_look_bind ?_
  split
  · next hended =>
    refine (yields_pure ⟨hd, fun hzero => halone ?_ fun hend => ?_⟩).inside 0
    · rw [Statement.endsItem, hended]
      rfl
    · rwa [← hsame hend]
  · next hended =>
    refine YieldsIn.bind (P := fun found e => found = true →
      e.StandsIn source ∧ List.isPrefixOf (";" : Text) d.ahead = true) ((yields_read
        fun found n hread hfound => ?_).inside 0) fun found e he => ?_
    · unfold Reader.consume Reader.takeIf at hread
      split_ifs at hread with hprefix
      · exact ⟨hd.advanceBy n, hprefix⟩
      · cases hread
        exact Bool.noConfusion hfound
    split
    · next hfound =>
      obtain ⟨he, hprefix⟩ := he hfound
      -- the semicolon ends all the items before it
      have hall : ∀ l ∈ items, IsAlone (room + 2) source l := by
        refine halone ?_ fun hend => ?_
        · rw [Statement.endsItem, hprefix, Bool.or_true]
        · rw [hsame hend] at hended
          exact absurd hend hended
      refine YieldsIn.bind (P := fun _ f => f.StandsIn source ∧ f.ahead.Avoids CodeUnit.isSpace)
        ((yields_read fun _ n hread => ?_).inside 0) ?_
      · cases hread
        refine ⟨he.advanceBy _, ?_⟩
        rw [Cursor.ahead_advanceBy, Text.gapLength, Text.drop_length_takeWhile]
        exact Text.avoids_dropWhile CodeUnit.isSpace e.ahead
      · rintro _ f ⟨hf, hspace⟩
        refine yieldsIn_look_bind ?_
        split
        · exact (yields_pure ⟨hf, fun l hl => .inl (hall l hl)⟩).inside 0
        · next hcode =>
          obtain ⟨hempty, hzero⟩ := isEmptyLine_behindGap hspace (Bool.not_eq_true _ ▸ hcode)
          refine ((yieldsIn_lineItem_itemAt hf hempty hzero).and
            ((yields_reaches room _ f).inside 0)).bind ?_
          rintro item g ⟨hitem, k, -, rfl⟩
          refine (yields_pure ⟨hf.advanceBy k, List.forall_mem_cons.mpr ⟨.inr ⟨f, hitem⟩, ?_⟩⟩).inside 0
          exact fun l hl => .inl (hall l hl)
    · exact yields_expected.inside 0

theorem yieldsIn_line_unindented (hc : c.StandsIn source) (hcode : c.ahead.isEmptyLine = false)
    (hzero : c.ahead.indentation = 0) :
    YieldsIn room 0 (line 0) c (Unindented (room + 2) source) := by
  rw [line_eq]
  refine ((yieldsIn_lineItem_itemAt hc hcode hzero).and ((yields_reaches room _ c).inside 0)).bind ?_
  rintro first d ⟨hitem, k, -, rfl⟩
  have hfirst : ItemsSoFar room source [first] (c.advanceBy k) :=
    ⟨hc.advanceBy k, List.forall_mem_singleton.mpr (.inr ⟨c, hitem⟩)⟩
  refine YieldsIn.bind (P := Unindented (room + 2) source) (YieldsIn.loop_of_advances
    (turnsAdvance_lineTurn room 0) hfirst fun items d h => (yieldsIn_lineTurn items h).mono ?_) ?_
  · rintro (items | items) d h <;> exact h
  rintro items d ⟨hd, halone⟩
  exact (yields_pure ⟨hd, fun hnext l hl => halone hnext l (List.mem_reverse.mp hl)⟩).inside 0

/-! ### The lines of a script -/

/-- The lines so far stay alone where a line of a block is read behind them. -/
theorem yieldsIn_blockLine_unindented (hc : c.StandsIn source) :
    YieldsIn room 0 (blockLine 0 false) c fun found d => match found with
      | none => d = c
      | some items => Unindented (room + 1) source items d ∧
          (d.ahead.nextCode.indentation = 0 → c.ahead.nextCode.indentation = 0) := by
  have hline := lineAt_passOver 0 c
  have hnext := nextCode_passOver 0 c
  have hpassed : (passOver 0 c).StandsIn source := hc.advanceBy _
  rw [blockLine_eq]
  refine YieldsIn.optional (YieldsIn.bind (P := fun _ d => d = passOver 0 c)
    ((yields_read fun _ n hread => ?_).inside 0) ?_) rfl
  · cases hread
    rfl
  rintro _ _ rfl
  refine yieldsIn_look_bind ?_
  -- what is done with the line depends on its kind alone
  generalize lineKind 0 (passOver 0 c).ahead = kind at hline ⊢
  generalize passOver 0 c = d at hline hnext hpassed
  generalize ht : d.ahead = t at hline
  cases hline with
  | ended => exact (yields_pure fun h => absurd rfl h).inside 0
  | misplaced =>
    refine (Yields.bind (P := fun _ _ => True) (yields_note trivial) fun _ _ _ => ?_).inside 0
    exact yields_pure fun h => absurd rfl h
  | comment hcomment _ =>
    rw [← ht] at hcomment
    refine (((yields_commentLine_isAlone room hpassed hcomment).and
      ((yields_commentLine_atLineEnd hcomment).and (yields_reaches room _ d))).bind ?_).inside 0
    rintro l e ⟨halone, ⟨-, hcode⟩, k, -, rfl⟩
    refine yields_pure fun _ => ⟨⟨hpassed.advanceBy k, fun _ => ?_⟩, fun hzero => ?_⟩
    · exact List.forall_mem_singleton.mpr halone
    · rwa [← hnext, ← hcode]
  | code hcode hzero =>
    rw [← ht] at hcode hzero
    refine YieldsIn.bind (P := fun _ e => e = d) ((yields_read fun _ n hread => ?_).inside 0) ?_
    · cases hread
      exact d.advanceBy_zero
    rintro _ _ rfl
    rw [if_neg Bool.false_ne_true]
    refine YieldsIn.attempt (yieldsIn_call fun room' hroom => ?_) fun h => absurd rfl h
    subst hroom
    refine (yieldsIn_line_unindented hpassed hcode hzero).mono fun items f hf _ => ⟨hf, fun _ => ?_⟩
    rwa [← hnext, Text.nextCode_of_isEmptyLine_eq_false hcode]

theorem yieldsIn_block_unindented (hc : c.StandsIn source) :
    YieldsIn room 0 (block 0 false) c (Unindented (room + 1) source) := by
  rw [block_eq]
  refine YieldsIn.bind (P := Unindented (room + 1) source) (YieldsIn.loop
    (I := Unindented (room + 1) source) ⟨hc, fun _ l hl => absurd hl List.not_mem_nil⟩
    (fun _ _ h => h) ?_) ?_
  · rintro lines d ⟨hd, halone⟩
    -- a turn adds the items of one line, each of which stands alone
    refine (yieldsIn_blockLine_unindented hd).bind fun found e hfound => ?_
    cases found with
    | none =>
      obtain rfl : e = d := hfound
      exact (yields_pure ⟨hd, halone⟩).inside 0
    | some items =>
      obtain ⟨⟨he, hitems⟩, hzero⟩ := hfound
      refine (yields_pure ⟨he, fun hnext l hl => ?_⟩).inside 0
      rcases List.mem_append.mp hl with hl | hl
      · exact hitems hnext l (List.mem_reverse.mp hl)
      · exact halone (hzero hnext) l hl
  · rintro lines d ⟨hd, halone⟩
    exact (yields_pure ⟨hd, fun hnext l hl => halone hnext l (List.mem_reverse.mp hl)⟩).inside 0

/-! ### The main result -/

/-- The slice of a line at the top of a script is a script of this line alone, apart from its places. -/
theorem exists_parse_slice {depth : Option Int} {block : Block} (h : parse source depth = .ok block) :
    ∀ l ∈ block, ∃ l', parse (l.span.slice source) depth = .ok [l'] ∧ l'.bare = l.bare := by
  obtain ⟨room, hroom, d, journal, hrun, hnil⟩ := parse_eq_ok_iff.mp h
  have hblock : YieldsIn room 0 (call (Rule.block 0 false)) (Cursor.ofText source)
      (Unindented room source) := by
    refine yieldsIn_call fun room' hroom' => ?_
    subst hroom'
    exact yieldsIn_block_unindented (Cursor.standsIn_ofText source)
  obtain ⟨-, halone⟩ := hblock _ _ _ _ _ rfl hrun
  intro l hl
  -- nothing but empty lines is behind the last line, so every line stands alone
  have hl : IsAlone room source l := halone (by rw [hnil]; rfl) l hl
  obtain ⟨lines, journal', hrun', hlines⟩ :=
    hl (fileScope depth) (Cursor.ofText (l.span.slice source)) [] rfl (List.append_nil _).symm
  obtain ⟨l', rfl, hbare⟩ := List.map_eq_singleton_iff.mp hlines
  refine ⟨l', parse_eq_ok_iff.mpr ⟨room, hroom, _, journal', hrun', ?_⟩, hbare⟩
  rw [Cursor.ahead_advanceBy]
  exact congrArg Text.nextCode (List.drop_length)

/--
A choice with its second branch, two items of one line and comments, of which each is a script of
its own.
-/
theorem exists_parse_slice_elif : ∃ block,
    parse "if a:\n  b\nelif c:\n  d\n\ne; var f # g\n# h" none = .ok block ∧ block.length = 4 ∧
      ∀ l ∈ block, ∃ l', parse (l.span.slice "if a:\n  b\nelif c:\n  d\n\ne; var f # g\n# h") none
        = .ok [l'] ∧ l'.bare = l.bare := by
  have hlength : (parse "if a:\n  b\nelif c:\n  d\n\ne; var f # g\n# h" none).toOption.map List.length
      = some 4 := by decide +kernel
  cases h : parse "if a:\n  b\nelif c:\n  d\n\ne; var f # g\n# h" none with
  | error failure =>
    rw [h] at hlength
    cases hlength
  | ok block =>
    rw [h] at hlength
    exact ⟨block, rfl, Option.some.inj hlength, exists_parse_slice h⟩

end Script

end GDScript
