import GDScript.Proofs.Bodies

/-!
# What a script drops

Every line of a block that is read starts where only passing over led to, and so does the end of the
text (`Rule.areSpaced`). What remains of a script without its lines is trivia, then, exactly if no
carriage return in it has code behind it on its line (`Script.isTrivia_iff_of_parse`). Where a
line feed follows every carriage return that is no condition at all
(`Script.isTrivia_of_parse_of_lineFeeds`); a lone one hides the rest of its line
(`Script.isTrivia_iff_of_parse_return`).
-/

namespace GDScript

open Grammar

/-! ### What is said of the rules -/

/--
The lines cover stretches from one cursor to the other, where a line may end or code may follow; and
so do the lines of the blocks in them.
-/
def Block.Covers (source : Text) (c : Cursor) (lines : Block) (c' : Cursor) : Prop :=
  ∃ q, Spaced .free c lines q c' ∧ q.IsSettled c'.ahead ∧ lines.HasSpacedBodies source

/-- What a rule finds from a cursor in the text, and where it ends. -/
def Rule.Accounts (source : Text) : {α : Type} → Rule α → Cursor → α → Cursor → Prop
  | _, .file, c, lines, c' =>
    ∃ q, Spaced .free c lines q c' ∧ c'.ahead = [] ∧ lines.HasSpacedBodies source
  -- blocks and lines cover their stretch; the other rules say what the blocks below them do
  | _, .block _ _, c, lines, c' | _, .line _, c, lines, c' =>
    Block.Covers source c lines c'
  | _, .indentedBlock _, _, body, _ | _, .elseBranch _, _, body, _ => body.IsSpaced source
  | _, .decl _, _, d, _ | _, .functionDecl _, _, d, _ | _, .classDecl _, _, d, _
  | _, .varDecl, _, d, _ | _, .constDecl, _, d, _ | _, .extendsDecl, _, d, _
  | _, .classNameDecl, _, d, _ | _, .signalDecl, _, d, _ | _, .enumDecl, _, d, _ =>
    ∀ body ∈ d.bodies, body.IsSpaced source
  | _, .stmt _, _, s, _ | _, .ifStmt _, _, s, _ | _, .whileStmt _, _, s, _ | _, .forStmt _, _, s, _
  | _, .matchStmt _, _, s, _ | _, .assignStmt, _, s, _ | _, .returnStmt, _, s, _
  | _, .passStmt, _, s, _ => ∀ body ∈ s.bodies, body.IsSpaced source
  | _, .condition _, _, b, _ | _, .elifBranch _, _, b, _ | _, .matchCase _, _, b, _ =>
    b.block.IsSpaced source
  | _, .enumVariant, _, _, _ | _, .functionArg, _, _, _ => True
  | _, .expr, _, _, _ | _, .unary _, _, _, _ | _, .parens, _, _, _ | _, .index, _, _, _
  | _, .member _, _, _, _ | _, .value, _, _, _ | _, .int, _, _, _ | _, .string, _, _, _
  | _, .nodePath, _, _, _ | _, .array, _, _, _ | _, .object, _, _, _ | _, .pair, _, _, _
  | _, .functionCall _, _, _, _ => True

/-- Every rule accounts for the text when it is entered from a cursor in it. -/
def Rule.AreSpaced (source : Text) (room : Nat) : Prop :=
  ∀ {α : Type} (rule : Rule α) (c : Cursor),
    Yields room (call rule) c fun v c' => c.IsIn source → rule.Accounts source c v c'

section Rules

variable {source : Text} {room : Nat} (hrules : Rule.AreSpaced source room)

include hrules in
/-- The blocks that belong to what the rules find are spaced. -/
theorem Rule.AreSpaced.allBodiesHave : Rule.AllBodiesHave source room (Block.IsSpaced source) := by
  intro α rule c hc
  refine (hrules rule c).mono fun v c' h => ?_
  cases rule with
  | file | block | line => trivial
  | _ => exact h hc

/-! ### Passing over -/

namespace Script

variable {c : Cursor} {p : Passing}

theorem yields_skipSpaces : Yields room (skipSpaces : Grammar Rule Unit) c
    fun _ c' => Passing.free.Leads c .free c' := by
  refine yields_read fun _ n hread => ?_
  cases hread
  exact .takeWhile c fun _ hu => hu

/-- Behind a comment the line ends. -/
theorem yields_comment : Yields room (read Reader.comment : Grammar Rule (Option Text)) c
    fun _ c' => ∃ q, Passing.free.Leads c q c' ∧ q.IsSettled c'.ahead := by
  refine yields_read fun found n hread => ?_
  unfold Reader.comment at hread
  split at hread
  · next comment hcomment =>
    cases hread
    obtain ⟨body, rest, hahead, rfl, hbody, hrest⟩ := Text.exists_of_comment? hcomment
    have hsplit : c.ahead = (CodeUnit.hash :: body) ++ rest := hahead
    refine ⟨.comment, ⟨_, rfl, ?_⟩, .inr ?_⟩
    · -- the sign opens a comment, which goes on to the line end
      have hstep : Passing.free.step CodeUnit.hash = some .comment := rfl
      rw [hsplit, List.take_left, Passing.after_cons hstep]
      exact Passing.after_comment hbody
    · rw [Cursor.ahead_advanceBy, hsplit, List.drop_left]
      exact Text.atLineEnd_of_avoids hrest
  · cases hread
    exact ⟨.free, .refl _ _, .inl rfl⟩

theorem yields_semicolon : Yields room (consume ";" : Grammar Rule Bool) c
    fun found c' => found = true → Passing.free.Leads c .free c' := by
  refine yields_read fun found n hread hfound => ?_
  unfold Reader.consume Reader.takeIf at hread
  split_ifs at hread with hprefix
  · cases hread
    obtain ⟨rest, hrest⟩ := List.isPrefixOf_iff_prefix.mp hprefix
    refine ⟨_, rfl, ?_⟩
    rw [← hrest, List.take_left]
    rfl
  · cases hread
    exact absurd hfound (by decide)

/--
What a block passes over before its next line. Behind it one stands between lexemes, unless the text
is at its end.
-/
theorem yields_passedOver (level : Nat) {p : Passing} (hp : p.IsSettled c.ahead) :
    Yields room (read (Reader.skip (Text.droppedLength (isPassedOver level) false)) :
        Grammar Rule Unit) c
      fun _ c' => ∃ q, p.Leads c q c' ∧ (q = .free ∨ c'.ahead = []) := by
  refine yields_read fun _ n hread => ?_
  cases hread
  obtain ⟨q, hafter, hq⟩ := Passing.exists_after_dropped
    (fun t => @isPassedOver_of_isBlankLine level t) (fun t => @isEmptyLine_of_isPassedOver level t)
    false hp
  exact ⟨q, ⟨_, rfl, hafter⟩, by rwa [Cursor.ahead_advanceBy]⟩

/-! ### Lines and blocks -/

theorem yields_commentLine {p : Passing} (hp : p = .free) : Yields room commentLine c
    fun l c' => Spaced p c [l] .free c' ∧ l.bodies = [] := by
  subst hp
  refine yields_skipSpaces.bind fun _ c₁ hspaces => ?_
  refine yields_here_bind ((yields_reaches room _ _).bind fun text c₂ hreaches => ?_)
  exact yields_here_bind (yields_pure ⟨.single hspaces hreaches rfl, rfl⟩)

include hrules

/-- An item covers what lies between the cursors. -/
theorem yields_lineItem (indent : Nat) (hc : c.IsIn source) :
    Yields room (lineItem indent) c fun l c' =>
      (l.span = ⟨c.location, c'.location⟩ ∧ ∀ body ∈ l.bodies, body.IsSpaced source) ∧
        c.Reaches c' := by
  have hdecl := (hrules (.decl indent) c).mono fun _ _ h => h hc
  have hstmt := (hrules (.stmt indent) c).mono fun _ _ h => h hc
  refine Yields.and (yields_here_bind (yields_choice fun g hg => ?_)) (yields_reaches room _ c)
  simp only [List.mem_cons, List.not_mem_nil, or_false] at hg
  rcases hg with rfl | rfl | rfl
  · exact hdecl.bind fun d c' hd => yields_here_bind (yields_pure ⟨rfl, hd⟩)
  · exact hstmt.bind fun s c' hs => yields_here_bind (yields_pure ⟨rfl, hs⟩)
  · refine Yields.bind (P := fun _ _ => True) (fun _ _ _ _ _ _ => trivial) fun e c' _ => ?_
    exact yields_here_bind (yields_pure ⟨rfl, fun _ h => absurd h List.not_mem_nil⟩)

/-- Between the items of a line there are blanks and semicolons, and behind them perhaps a comment. -/
theorem yields_line (indent : Nat) (hc : c.IsIn source) :
    Yields room (line indent) c fun lines c' => Block.Covers source c lines c' := by
  refine (yields_lineItem hrules indent hc).bind ?_
  rintro first c₁ ⟨⟨hspan, hbodies⟩, hreaches⟩
  refine Yields.bind (P := fun items c' => Block.Covers source c items.reverse c') ?_
    fun items c' hitems => yields_pure hitems
  -- before each turn the items so far cover what has been read, up to the end of the last one
  refine Yields.loop (I := fun items c' => Spaced .free c items.reverse .free c' ∧
    Block.HasSpacedBodies source items.reverse) ?_ ?_ ?_
  · refine ⟨Spaced.single (.refl .free c) hreaches hspan, fun l hl => ?_⟩
    rw [List.mem_singleton.mp hl]
    exact hbodies
  · exact fun items c' hitems => ⟨.free, hitems.1, .inl rfl, hitems.2⟩
  rintro items c' ⟨hitems, hitemBodies⟩
  refine yields_skipSpaces.bind fun _ c₂ hspaces => ?_
  refine yields_comment.bind ?_
  rintro _ c₃ ⟨q, hcomment, hsettled⟩
  refine yields_look_bind ?_
  split
  · next hended =>
    exact yields_pure ⟨q, hitems.leads (hspaces.trans hcomment), .inr hended, hitemBodies⟩
  · next hended =>
    obtain rfl : q = .free := hsettled.resolve_right hended
    refine yields_semicolon.bind fun found c₄ hsemicolon => ?_
    split
    · next hfound =>
      refine yields_skipSpaces.bind fun _ c₅ hspaces' => ?_
      have hgap : Passing.free.Leads c' .free c₅ :=
        ((hspaces.trans hcomment).trans (hsemicolon hfound)).trans hspaces'
      refine yields_look_bind ?_
      split
      · exact yields_pure ⟨hitems.leads hgap, hitemBodies⟩
      · have hc₅ := (hc.reaches hitems.reaches).reaches hgap.reaches
        refine (yields_lineItem hrules indent hc₅).bind ?_
        rintro item c₆ ⟨⟨hitemSpan, hitemBody⟩, hitemReaches⟩
        refine yields_pure ?_
        show Spaced .free c (item :: items).reverse .free c₆ ∧
          Block.HasSpacedBodies source (item :: items).reverse
        rw [List.reverse_cons]
        refine ⟨hitems.append (.single hgap hitemReaches hitemSpan), hitemBodies.append ?_⟩
        intro l hl
        rw [List.mem_singleton.mp hl]
        exact hitemBody
    · exact yields_expected

/-- The next line of a block covers what it is read from, behind what the block passes over. -/
theorem yields_blockLine (level : Nat) (required : Bool) {p : Passing} (hc : c.IsIn source)
    (hp : p.IsSettled c.ahead) :
    Yields room (blockLine level required) c fun found c' =>
      match found with
      | none => c' = c
      | some lines => ∃ q, Spaced p c lines q c' ∧ q.IsSettled c'.ahead ∧
        Block.HasSpacedBodies source lines := by
  refine Yields.optional ((yields_passedOver level hp).bind ?_) rfl
  rintro _ c₀ ⟨q, hpassed, hq⟩
  refine Yields.bind (P := fun kind c' => kind = lineKind level c₀.ahead ∧ c' = c₀)
    (yields_look ⟨rfl, rfl⟩) ?_
  rintro kind c₁ ⟨hkind, rfl⟩
  -- where a line is left, what was passed over before it ended with a line feed
  have hfree : kind ≠ .ended → q = .free := by
    intro hne
    refine hq.resolve_right fun hnil => hne ?_
    rw [hkind, hnil]
    rfl
  cases kind with
  | ended => exact yields_pure fun h => absurd rfl h
  | comment =>
    refine (yields_commentLine (hfree (by decide))).bind ?_
    rintro l c₂ ⟨hline, hbodies⟩
    refine yields_pure fun _ => ⟨.free, .of_leads hpassed hline, .inl rfl, ?_⟩
    intro l' hl' body hbody
    rw [List.mem_singleton.mp hl', hbodies] at hbody
    exact absurd hbody List.not_mem_nil
  | misplaced =>
    refine Yields.bind (P := fun _ _ => True) (fun _ _ _ _ _ _ => trivial) fun _ c₂ _ => ?_
    exact yields_pure fun h => absurd rfl h
  | code =>
    obtain rfl := hfree (by decide)
    have hlevel : c₁.ahead.indentation = level := by
      unfold lineKind at hkind
      split_ifs at hkind with hempty hcomment hlevel
      exact beq_iff_eq.mp hlevel
    refine Yields.bind (P := fun _ c' => Passing.free.Leads c₁ .free c')
      (yields_read fun _ n hread => ?_) fun _ c₂ hindent => ?_
    · cases hread
      rw [← hlevel]
      exact .takeWhile c₁ fun u hu => by rw [CodeUnit.isSpace, hu, Bool.true_or]
    · have hlead := hpassed.trans hindent
      have hline := (hrules (.line level) c₂).mono fun _ _ h => h (hc.reaches hlead.reaches)
      have hcovers : ∀ lines c', Block.Covers source c₂ lines c' → ∃ q, Spaced p c lines q c' ∧
          q.IsSettled c'.ahead ∧ Block.HasSpacedBodies source lines := by
        rintro lines c' ⟨q, hspaced, hsettled, hbodies⟩
        exact ⟨q, .of_leads hlead hspaced, hsettled, hbodies⟩
      split
      · exact hline.bind fun lines c₃ hlines => yields_pure fun _ => hcovers lines c₃ hlines
      · exact Yields.attempt (hline.mono fun lines c₃ hlines _ => hcovers lines c₃ hlines)
          fun h => absurd rfl h

theorem yields_block (level : Nat) (required : Bool) (hc : c.IsIn source) :
    Yields room (block level required) c fun lines c' => Block.Covers source c lines c' := by
  refine Yields.bind (P := fun (lines : Block) c' => Block.Covers source c lines.reverse c') ?_
    fun lines c' hlines => yields_pure hlines
  refine Yields.iterate (I := fun (lines : Block) c' => Block.Covers source c lines.reverse c') ?_ ?_
  · exact ⟨.free, .nil (.refl .free c), .inl rfl, fun _ h => absurd h List.not_mem_nil⟩
  · rintro lines c' ⟨q, hlines, hsettled, hbodies⟩
    refine (yields_blockLine hrules level _ (hc.reaches hlines.reaches) hsettled).bind ?_
    intro found c'' hfound
    -- a turn that finds nothing leaves the cursor where it is
    cases found with
    | none =>
      subst hfound
      exact yields_pure ⟨q, hlines, hsettled, hbodies⟩
    | some more =>
      obtain ⟨r, hmore, hsettled', hbodies'⟩ := hfound
      refine yields_pure ?_
      show Block.Covers source c (more.reverse ++ lines).reverse c''
      rw [List.reverse_append, List.reverse_reverse]
      exact ⟨r, hlines.append hmore, hsettled', hbodies.append hbodies'⟩

/-- A block that a header governs starts on a line of its own, so between lexemes. -/
theorem findsIn_indentedBlock (header : Nat) :
    FindsIn source room (indentedBlock header) (Block.IsSpaced source) := by
  refine FindsIn.after fun level c hc => ?_
  refine (hrules (.block level true) c).mono fun lines c' h => ?_
  obtain ⟨q, hspaced, -, hbodies⟩ := h hc
  exact .mk hc hspaced hbodies

/-- Behind the last line there are only a line break and empty lines, up to the end of the text. -/
theorem yields_file (hc : c.IsIn source) : Yields room file c fun lines c' =>
    ∃ q, Spaced .free c lines q c' ∧ c'.ahead = [] ∧ Block.HasSpacedBodies source lines := by
  refine ((hrules (.block 0 false) c).mono fun _ _ h => h hc).bind ?_
  rintro lines c₁ ⟨q, hspaced, hsettled, hbodies⟩
  obtain ⟨r, hafter⟩ := Passing.exists_after_codeDistance hsettled
  refine Yields.bind (P := fun ended c' => ended = true → q.Leads c₁ r c' ∧ c'.ahead = []) ?_ ?_
  · -- what is passed over at the end counts only if nothing is left behind it
    refine Yields.rewindIf (Yields.bind (P := fun _ c' => q.Leads c₁ r c')
      (yields_read fun _ n hread => ?_) fun _ c₂ hlead => yields_look ?_)
    · cases hread
      exact ⟨_, rfl, hafter⟩
    · intro hended
      rw [hended]
      exact ⟨hlead, List.isEmpty_iff.mp hended⟩
  · intro ended c₂ hended
    split
    · next hfinished =>
      obtain ⟨hlead, hend⟩ := hended hfinished
      exact yields_pure ⟨r, hspaced.leads hlead, hend, hbodies⟩
    · refine Yields.blame (Yields.bind (P := fun _ _ => True) (fun _ _ _ _ _ _ => trivial) ?_)
      exact fun _ c₃ _ => yields_read fun _ n hread => absurd hread (by simp [trailing])

end Script

/-! ### Every rule -/

include hrules

/-- The bodies of the rules account for the text, when the rules do that they call. -/
theorem Rule.accounts_body {α : Type} (rule : Rule α) (c : Cursor) :
    Yields room rule.body c fun v c' => c.IsIn source → rule.Accounts source c v c' := by
  by_cases hc : c.IsIn source
  · refine Yields.mono (P := fun v c' => rule.Accounts source c v c') ?_ fun _ _ h _ => h
    cases rule with
    | file => exact Script.yields_file hrules hc
    | block level required => exact Script.yields_block hrules level required hc
    | line indent => exact Script.yields_line hrules indent hc
    | _ =>
      exact Rule.findsIn_body (Rule.AreSpaced.allBodiesHave hrules)
        (Script.findsIn_indentedBlock hrules) _ c hc
  · exact fun _ _ _ _ _ _ hin => absurd hin hc

end Rules

/-- Every rule accounts for the text, with any room. -/
theorem Rule.areSpaced (source : Text) (room : Nat) : Rule.AreSpaced source room :=
  yields_call_of_bodies
    (S := fun rule c v c' => c.IsIn source → Rule.Accounts source rule c v c')
    (fun _ hrules _ rule c => Rule.accounts_body hrules rule c) room

/-! ### Whole scripts -/

namespace Script

variable {source : Text} {depth : Option Int} {block : Block}

/-- The lines that a script is read as cover stretches of it, up to the end of the text. -/
theorem exists_spaced_of_parse (h : parse source depth = .ok block) :
    ∃ q c', Spaced .free (Cursor.ofText source) block q c' ∧ c'.ahead = [] ∧
      block.HasSpacedBodies source := by
  obtain ⟨c', hfound⟩ := exists_found_of_parse h fun room => Rule.areSpaced source room .file _
  obtain ⟨q, hspaced⟩ := hfound (Cursor.isIn_ofText source)
  exact ⟨q, c', hspaced⟩

theorem exists_after_of_mem_remains (h : parse source depth = .ok block) {gap : Text}
    (hgap : gap ∈ block.remains source 0) : ∃ q, Passing.free.after gap = some q := by
  obtain ⟨q, c', hspaced, hend, -⟩ := exists_spaced_of_parse h
  exact hspaced.remains (Cursor.isIn_ofText source) hend rfl gap hgap

theorem exists_after_of_mem_between (h : parse source depth = .ok block) {inner : Block}
    (hinner : inner.Within block) {gap : Text} (hgap : gap ∈ inner.between source) :
    ∃ q, Passing.free.after gap = some q := by
  obtain ⟨q, c', -, -, hbodies⟩ := exists_spaced_of_parse h
  cases hinner.isSpaced hbodies with
  | mk hc hspaced _ => exact hspaced.between hc gap hgap

/-- The lines of a script, and of every block in it, cover stretches that follow one another. -/
theorem inOrder_of_parse (h : parse source depth = .ok block) :
    block.InOrder 0 source.length ∧
      ∀ inner : Block, inner.Within block → inner.InOrder 0 source.length := by
  obtain ⟨q, c', hspaced, -, hbodies⟩ := exists_spaced_of_parse h
  refine ⟨hspaced.inOrder (Cursor.isIn_ofText source), fun inner hinner => ?_⟩
  cases hinner.isSpaced hbodies with
  | mk hc hspaced _ => exact (hspaced.inOrder hc).of_le (Nat.zero_le _)

/--
What is left of a script without its lines, and what stands between the lines of a block in it, is
trivia exactly if only trivia stands between each of its carriage returns and the next line feed.
-/
theorem isTrivia_iff_of_parse (h : parse source depth = .ok block) :
    (block.InOrder 0 source.length ∧ ∀ gap ∈ block.remains source 0,
      gap.isTrivia false = true ↔ gap.KeepsReturns) ∧
    ∀ inner : Block, inner.Within block → inner.InOrder 0 source.length ∧
      ∀ gap ∈ inner.between source, gap.isTrivia false = true ↔ gap.KeepsReturns := by
  obtain ⟨horder, hinnerOrder⟩ := inOrder_of_parse h
  refine ⟨⟨horder, fun gap hgap => ?_⟩, fun inner hinner =>
    ⟨hinnerOrder inner hinner, fun gap hgap => ?_⟩⟩
  · obtain ⟨q, hafter⟩ := exists_after_of_mem_remains h hgap
    exact Text.isTrivia_iff_keepsReturns hafter
  · obtain ⟨q, hafter⟩ := exists_after_of_mem_between h hinner hgap
    exact Text.isTrivia_iff_keepsReturns hafter

/-- Behind a lone carriage return the rest of the line is dropped, though it is no trivia. -/
theorem isTrivia_iff_of_parse_return : ∃ block, parse "a\rb\n" none = .ok block ∧
    ("\rb\n" : Text) ∈ block.remains "a\rb\n" 0 ∧ Text.isTrivia false "\rb\n" = false ∧
    ¬Text.KeepsReturns "\rb\n" := by
  have hparse : parse "a\rb\n" none = .ok [.expr (.ident "a") ⟨⟨1, 1, 0⟩, ⟨1, 2, 1⟩⟩] := by rfl
  have hmem : ("\rb\n" : Text) ∈ Block.remains "a\rb\n" 0
      [.expr (.ident "a") ⟨⟨1, 1, 0⟩, ⟨1, 2, 1⟩⟩] := by decide
  have hcode : Text.isTrivia false "\rb\n" = false := by rfl
  refine ⟨_, hparse, hmem, hcode, fun hkeeps => ?_⟩
  have htrivia := ((isTrivia_iff_of_parse hparse).1.2 _ hmem).mpr hkeeps
  rw [hcode] at htrivia
  exact Bool.false_ne_true htrivia

/-- No code is dropped from a script in which a line feed follows every carriage return. -/
theorem isTrivia_of_parse_of_lineFeeds (h : parse source depth = .ok block)
    (hfeeds : ∀ a b, source = a ++ CodeUnit.carriageReturn :: b →
      b.head?.all (· == CodeUnit.lineFeed) = true) :
    (∀ gap ∈ block.remains source 0, gap.isTrivia false = true) ∧
      ∀ inner : Block, inner.Within block →
        ∀ gap ∈ inner.between source, gap.isTrivia false = true := by
  refine ⟨fun gap hgap => ?_, fun inner hinner gap hgap => ?_⟩
  · obtain ⟨q, hafter⟩ := exists_after_of_mem_remains h hgap
    have hkeeps := Text.keepsReturns_of_isInfix (Block.isInfix_of_mem_remains hgap) hfeeds
    exact (Text.isTrivia_iff_keepsReturns hafter).mpr hkeeps
  · obtain ⟨q, hafter⟩ := exists_after_of_mem_between h hinner hgap
    have hkeeps := Text.keepsReturns_of_isInfix (Block.isInfix_of_mem_between hgap) hfeeds
    exact (Text.isTrivia_iff_keepsReturns hafter).mpr hkeeps

end Script

end GDScript
