import GDScript.Proofs.Items
import GDScript.Proofs.Script.Item
import GDScript.Proofs.Stretch.Script

/-!
# Tabs in front of items

Where a space or a tab is ahead there is hardly ever an item: words and operands are read where they
stand. Only a variable and a function may have a modifier, and the gap behind it is skipped even when
there is none; so the word itself may stand behind the gap (`Script.yields_lineItem_of_blank`). In a
script the indentation has been taken in front of every item, and then the gap starts with a tab
(`Script.startsBlank_iff_of_parse`).
-/

namespace GDScript

open Grammar
open Text (IsGap)

/-- The word that the line starts with, if that is all there is in front of the name it declares. -/
def Line.bareWord? : Line → Option Text
  | .decl (.varDecl d) _ => if d.modifier = none then some "var" else none
  | .decl (.functionDecl head _) _ => if head.modifier = none then some "func" else none
  | _ => none

/-- The text starts with the bare word of the line, behind a gap. -/
def Line.FollowsGap (t : Text) (l : Line) : Prop :=
  ∃ word gap rest : Text, l.bareWord? = some word ∧ IsGap false gap ∧ t = gap ++ (word ++ rest)

/-- The gap in front of the bare word begins with a tab. -/
def Line.FollowsTab (t : Text) (l : Line) : Prop :=
  ∃ t', t = CodeUnit.tab :: t' ∧ l.FollowsGap t'

/-! ### Where a blank is ahead -/

section Blank

variable {room : Nat} {c : Cursor}

/-- Nothing is ahead, or a space or a tab. -/
theorem Text.Avoids.of_blank {t : Text} (h : t.Avoids (!CodeUnit.isSpace ·)) {p : CodeUnit → Bool}
    (hp : p CodeUnit.space = false ∧ p CodeUnit.tab = false) : t.Avoids p := by
  refine h.imp fun u hu => ?_
  rw [Bool.not_eq_true', CodeUnit.isSpace, Bool.or_eq_false_iff, beq_eq_false_iff_ne,
    beq_eq_false_iff_ne]
  constructor
  · rintro rfl
    exact Bool.false_ne_true (hp.1.symm.trans hu)
  · rintro rfl
    exact Bool.false_ne_true (hp.2.symm.trans hu)

theorem startsWord_eq_false_of_blank (hc : c.ahead.Avoids (!CodeUnit.isSpace ·)) {word : Text}
    (hword : word.IsName) : Text.startsWord word c.ahead = false :=
  Text.startsWord_eq_false hword (hc.of_blank (by decide))

theorem yields_expectKeyword_of_blank (hc : c.ahead.Avoids (!CodeUnit.isSpace ·)) {word : Text}
    (hword : word.IsName) : Yields room (expectKeyword word : Grammar Rule Unit) c fun _ _ => False := by
  refine yields_expectKeyword.mono fun _ _ h => ?_
  rw [startsWord_eq_false_of_blank hc hword] at h
  exact Bool.false_ne_true h

namespace Expression

theorem yields_postfixed_of_blank (hc : c.ahead.Avoids (!CodeUnit.isSpace ·)) :
    Yields room postfixed c fun _ _ => False := by
  refine Yields.bind (P := fun _ _ => False) ?_ fun _ _ h => h.elim
  have hnone : List.isPrefixOf ("(" : Text) c.ahead = false :=
    Text.isPrefixOf_cons_eq_false (hc.of_blank (by decide))
  refine yields_look_bind ?_
  rw [hnone, if_neg Bool.false_ne_true]
  refine yields_call fun room => yields_look_bind ?_
  cases hahead : c.ahead with
  | nil => exact yields_expected
  | cons u t =>
    rw [hahead, Text.avoids_cons, Bool.not_eq_false', CodeUnit.isSpace, Bool.or_eq_true, beq_iff_eq,
      beq_iff_eq] at hc
    rcases hc with rfl | rfl <;> exact yields_expected

theorem yields_expr_of_blank (hc : c.ahead.Avoids (!CodeUnit.isSpace ·)) :
    Yields room expr c fun _ _ => False := by
  refine yields_call fun room => ?_
  -- no operator stands at a space, and no value does
  have hunary : Yields room unary c fun _ _ => False := by
    refine Yields.bind (P := fun found d => found = none ∧ d.ahead.Avoids (!CodeUnit.isSpace ·))
      (yields_read fun found n hread => ?_) ?_
    · have hnone := Spelling.find?_unary_eq_none (hc.of_blank (by decide))
        (startsWord_eq_false_of_blank hc (by decide))
      rw [Reader.operator, hnone] at hread
      cases hread
      exact ⟨rfl, hc⟩
    · rintro _ d ⟨rfl, hd⟩
      exact yields_postfixed_of_blank hd
  have hterm : Yields room term c fun _ _ => False := hunary.bind fun _ _ h => h.elim
  have hsum : Yields room sum c fun _ _ => False := hterm.bind fun _ _ h => h.elim
  exact hsum.bind fun _ _ h => h.elim

end Expression

namespace Declaration

/-- No modifier is read from a blank; the gap is skipped, and the word stands behind it. -/
theorem yields_modified_of_blank {α β : Type} {word : β → Text} {choices : List β} {keyword : Text}
    {f : Option β → Unit → Grammar Rule α} {P : α → Prop}
    (hc : c.ahead.Avoids (!CodeUnit.isSpace ·)) (hnames : ∀ choice ∈ choices, (word choice).IsName)
    (hf : Finds room (f none ()) P) :
    Yields room (read (Reader.oneOf word choices) >>= fun modifier => skipSpaces >>= fun _ =>
        expectKeyword keyword >>= f modifier) c fun v _ =>
      P v ∧ ∃ gap rest : Text, IsGap false gap ∧ c.ahead = gap ++ (keyword ++ rest) := by
  -- without a modifier in front the spaces are skipped and the keyword is read behind them
  have hnone : choices.find? (fun choice => Text.startsWord (word choice) c.ahead) = none :=
    List.find?_eq_none.mpr fun choice hchoice => by
      rw [startsWord_eq_false_of_blank hc (hnames choice hchoice)]
      exact Bool.false_ne_true
  refine Yields.bind (P := fun found c' => found = none ∧ c'.ahead = c.ahead)
    (yields_read fun found n hread => ?_) ?_
  · rw [Reader.oneOf, hnone] at hread
    cases hread
    exact ⟨rfl, rfl⟩
  rintro _ c' ⟨rfl, hc'⟩
  refine Yields.bind (P := fun _ d => d.ahead = List.dropWhile CodeUnit.isSpace c.ahead)
    (yields_read fun _ n hread => ?_) fun _ d hd => ?_
  · cases hread
    rw [Cursor.ahead_advanceBy, hc', Text.gapLength, Text.drop_length_takeWhile]
  refine yields_expectKeyword.bind fun _ e hword => (hf e).mono fun v _ hv => ⟨hv, ?_⟩
  rw [hd, Text.startsWord, Bool.and_eq_true, List.isPrefixOf_iff_prefix] at hword
  obtain ⟨rest, hrest⟩ := hword.1
  refine ⟨List.takeWhile CodeUnit.isSpace c.ahead, rest, fun u hu => Text.takeWhile_pos u hu, ?_⟩
  rw [hrest, List.takeWhile_append_dropWhile]

theorem yields_varDecl_of_blank (hc : c.ahead.Avoids (!CodeUnit.isSpace ·)) (span : Span) :
    Yields room varDecl c fun d _ => Line.FollowsGap c.ahead (.decl d span) := by
  refine (yields_modified_of_blank (P := fun d => Line.bareWord? (.decl d span) = some "var") hc
    (by decide) ?_).mono fun d _ ⟨hd, gap, rest, hgap, hahead⟩ => ⟨_, gap, rest, hd, hgap, hahead⟩
  refine Finds.after fun _ => Finds.after fun _ => Finds.after fun _ => Finds.after fun _ => ?_
  exact finds_pure rfl

theorem yields_functionDecl_of_blank (indent : Nat) (hc : c.ahead.Avoids (!CodeUnit.isSpace ·))
    (span : Span) :
    Yields room (functionDecl indent) c fun d _ => Line.FollowsGap c.ahead (.decl d span) := by
  refine (yields_modified_of_blank (P := fun d => Line.bareWord? (.decl d span) = some "func") hc
    (by decide) ?_).mono fun d _ ⟨hd, gap, rest, hgap, hahead⟩ => ⟨_, gap, rest, hd, hgap, hahead⟩
  refine Finds.after fun _ => Finds.after fun _ => Finds.after fun _ => Finds.after fun _ => ?_
  refine Finds.after fun _ => Finds.after fun _ => Finds.after fun _ => Finds.after fun _ => ?_
  exact finds_pure rfl

end Declaration

namespace Script

/-- An item that starts with a blank is a variable or a function whose bare word stands behind a gap. -/
theorem yields_lineItem_of_blank (indent : Nat) (hc : c.ahead.Avoids (!CodeUnit.isSpace ·)) :
    Yields room (lineItem indent) c fun l _ => l.FollowsGap c.ahead := by
  -- a rule that starts with its keyword does not find it at a space
  have hword : ∀ {α : Type} {rule : Rule α} {f : Unit → Grammar Rule α} {P : α → Cursor → Prop}
      (room : Nat) (word : Text), word.IsName → rule.body = expectKeyword word >>= f →
        Yields room (call rule) c P := by
    intro α rule f P room word hname hbody
    refine yields_call fun room => ?_
    change Yields room rule.body c P
    rw [hbody]
    exact (yields_expectKeyword_of_blank hc hname).bind fun _ _ h => h.elim
  rw [lineItem_eq]
  refine yields_here_bind (yields_choice fun g hg => ?_)
  simp only [List.mem_cons, List.not_mem_nil, or_false] at hg
  rcases hg with rfl | rfl | rfl
  · have hdecl : Yields room (call (Rule.decl indent)) c fun d _ =>
        ∀ span, Line.FollowsGap c.ahead (.decl d span) := by
      refine yields_call fun room => yields_choice fun g hg => ?_
      simp only [List.mem_cons, List.not_mem_nil, or_false] at hg
      rcases hg with rfl | rfl | rfl | rfl | rfl | rfl | rfl | rfl
      · exact hword room "class_name" (by decide) rfl
      · exact hword room "extends" (by decide) rfl
      · exact hword room "signal" (by decide) rfl
      · exact hword room "enum" (by decide) rfl
      · exact hword room "class" (by decide) rfl
      · -- functions and variables look for a modifier first, and skip spaces before the keyword
        exact yields_call fun _ => yields_forall fun span =>
          Declaration.yields_functionDecl_of_blank indent hc span
      · exact hword room "const" (by decide) rfl
      · exact yields_call fun _ => yields_forall fun span =>
          Declaration.yields_varDecl_of_blank hc span
    exact hdecl.bind fun d c' hd => yields_here_bind (yields_pure (hd _))
  · have hstmt : Yields room (call (Rule.stmt indent)) c fun _ _ => False := by
      refine yields_call fun room => yields_choice fun g hg => ?_
      simp only [List.mem_cons, List.not_mem_nil, or_false] at hg
      rcases hg with rfl | rfl | rfl | rfl | rfl | rfl | rfl
      · exact hword room "if" (by decide) rfl
      · exact hword room "while" (by decide) rfl
      · exact hword room "for" (by decide) rfl
      · exact hword room "match" (by decide) rfl
      · exact hword room "return" (by decide) rfl
      · exact yields_call fun _ =>
          (Expression.yields_postfixed_of_blank hc).bind fun _ _ h => h.elim
      · exact hword room "pass" (by decide) rfl
    exact hstmt.bind fun _ _ h => h.elim
  · exact (Expression.yields_expr_of_blank hc).bind fun _ _ h => h.elim

end Script

end Blank

/-! ### Every line of a script -/

namespace Line

variable {l : Line} {t : Text}

theorem startsName_of_bareWord? {word : Text} (h : l.bareWord? = some word) (rest : Text) :
    Text.startsName (word ++ rest) = true := by
  unfold bareWord? at h
  split at h
  · split_ifs at h
    cases h
    rfl
  · split_ifs at h
    cases h
    rfl
  · cases h

/-- Where the indentation has been taken, a gap begins with a tab. -/
theorem FollowsGap.followsTab (h : l.FollowsGap t) (hblank : t.Avoids (!CodeUnit.isSpace ·))
    (hspace : t.Avoids (· == CodeUnit.space)) : l.FollowsTab t := by
  obtain ⟨word, gap, rest, hword, hgap, rfl⟩ := h
  cases gap with
  | nil =>
    -- without a gap the word would be a blank
    have hstart : Text.startsName (word ++ rest) = false := hblank.of_blank (by decide)
    rw [startsName_of_bareWord? hword rest] at hstart
    exact Bool.noConfusion hstart
  | cons u gap =>
    have hu := hgap u List.mem_cons_self
    have hne : (u == CodeUnit.space) = false := hspace
    rw [CodeUnit.isSpace, hne, Bool.false_or, beq_iff_eq] at hu
    subst hu
    exact ⟨_, rfl, word, gap, rest, hword, fun v hv => hgap v (List.mem_cons_of_mem _ hv), rfl⟩

end Line

namespace Script

variable {source : Text} {depth : Option Int} {block : Block}

/-- An item starts with a blank exactly where its bare word stands behind a tab. -/
theorem yields_lineItem_startsBlank_iff {room indent : Nat} {c : Cursor}
    (hspace : c.ahead.Avoids (· == CodeUnit.space)) :
    Yields room (lineItem indent) c fun l _ =>
      c.ahead.head?.any CodeUnit.isSpace = true ↔ l.FollowsTab c.ahead := by
  have htab : ∀ l : Line, l.FollowsTab c.ahead → c.ahead.head?.any CodeUnit.isSpace = true := by
    rintro l ⟨t, ht, -⟩
    rw [ht]
    rfl
  -- an item in front of which no space stands is no question
  by_cases hblank : c.ahead.Avoids (!CodeUnit.isSpace ·)
  · refine (yields_lineItem_of_blank indent hblank).mono fun l _ hl => ?_
    have hfollows := hl.followsTab hblank hspace
    exact ⟨fun _ => hfollows, htab l⟩
  · intro scope journal l c' journal' _
    refine ⟨fun hstarts => absurd ?_ hblank, htab l⟩
    cases hahead : c.ahead with
    | nil => exact Text.avoids_nil _
    | cons u t =>
      rw [hahead] at hstarts
      exact Text.avoids_cons.mpr (congrArg (! ·) hstarts)

/--
A line of code in a script, however deep, starts with a space or a tab only if it declares a variable or
a function without a modifier: then its first word stands behind a tab, and perhaps further blanks.
-/
theorem startsBlank_iff_of_parse (h : parse source depth = .ok block) :
    block.Every fun l => l.isComment = false →
      ((source.drop l.span.start.offset).head?.any CodeUnit.isSpace = true ↔
        l.FollowsTab (source.drop l.span.start.offset)) := by
  refine every_of_parse ⟨fun room indent c hc hspace => ?_, fun text span h => nomatch h⟩ h
  refine ((yields_lineItem_startsBlank_iff hspace).and (yields_lineItem_span indent c)).mono ?_
  rintro l c' ⟨hl, hspan⟩ -
  rw [hspan, ← hc.ahead_eq]
  exact hl

/-- The declaration of a variable starts at the tab in front of its word. -/
theorem startsBlank_iff_of_parse_tab : ∃ l,
    parse "\tvar x\n" none = .ok [l] ∧ l.isComment = false ∧ l.span.start = .first ∧
      l.FollowsTab "\tvar x\n" := by
  have hparse : parse "\tvar x\n" none = .ok [.decl
      (.varDecl ⟨none, "x", .declared none, none, none, none⟩) ⟨.first, ⟨1, 7, 6⟩⟩] := by rfl
  refine ⟨_, hparse, rfl, rfl, ?_⟩
  cases startsBlank_iff_of_parse hparse with
  | mk hlines _ => exact (hlines _ List.mem_cons_self rfl).mp rfl

end Script

end GDScript
