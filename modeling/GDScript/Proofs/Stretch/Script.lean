import GDScript.Proofs.Between.Script
import GDScript.Proofs.Progress
import GDScript.Proofs.Stretch.Block

/-!
# Lines inside lines

In every script that is read, and in every block of it, each line takes a unit at least, lines do not
overlap, and the blocks of a line lie inside it, one behind the other (`Script.isLaidOut_of_parse`).

A run only goes forward, so what its parts find lies between the cursors that they start and end at;
`Rule.Nests` says it of the rules. Going back does not matter, since nothing is found on the way that
is given up. A line takes a unit because an item and a comment do, and between two blocks stands at
least the header of the later one.
-/

namespace GDScript

open Grammar

variable {room : Nat} {c : Cursor}

/-- Where there is less ahead, more has been read. -/
theorem Cursor.Reaches.offset_lt {c c' : Cursor} (h : c.Reaches c')
    (hlt : c'.ahead.length < c.ahead.length) : c.location.offset < c'.location.offset := by
  obtain ⟨k, hk, rfl⟩ := h
  rw [ahead_advanceBy, List.length_drop] at hlt
  rw [offset_advanceBy]
  omega

namespace Grammar

variable {R : Type → Type} [RuleSet R] {α β : Type} {g : Grammar R α}

/-- The blocks of what is found nest between the cursors at which a run starts and ends. -/
def Nests (room : Nat) (g : Grammar R α) (bodies : α → List Block) : Prop :=
  ∀ c, Yields room g c fun v c' =>
    Block.Nest c.location.offset c'.location.offset (bodies v)

/-- What comes first only goes forward. -/
theorem Nests.after {f : α → Grammar R β} {bodies : β → List Block}
    (hf : ∀ v, Nests room (f v) bodies) : Nests room (g >>= f) bodies :=
  fun c => (yields_reaches room g c).bind fun v c' hreaches =>
    (hf v c').mono fun _ _ h => h.mono_left hreaches.offset_le

/-- What is made of a find keeps its blocks. -/
theorem Nests.map {f : α → β} {bodies : α → List Block} {bodies' : β → List Block}
    (h : Nests room g bodies) (hf : ∀ v, bodies' (f v) = bodies v) :
    Nests room (do let v ← g; return f v) bodies' := by
  refine fun c => (h c).bind fun v c' hv => yields_pure ?_
  rw [hf v]
  exact hv

theorem nests_of_eq_nil {bodies : α → List Block} (h : Finds room g fun v => bodies v = []) :
    Nests room g bodies := by
  refine fun c => ((h c).and (yields_reaches room g c)).mono ?_
  rintro v c' ⟨hnil, hreaches⟩
  rw [hnil]
  exact Block.nest_nil hreaches.offset_le

theorem nests_choice {alternatives : List (Grammar R α)} {bodies : α → List Block}
    (h : ∀ g ∈ alternatives, Nests room g bodies) : Nests room (choice alternatives) bodies :=
  fun c => yields_choice fun g hg => h g hg c

end Grammar

/-! ### What is said of the rules -/

/-- What a rule finds lies between the cursors at which it starts and ends. -/
def Rule.Nests : {α : Type} → Rule α → Cursor → α → Cursor → Prop
  | _, .file, c, lines, c' | _, .block _ _, c, lines, c' | _, .indentedBlock _, c, lines, c'
  | _, .line _, c, lines, c' => Block.Fits c.location.offset c'.location.offset lines
  | _, .decl _, c, d, c' | _, .functionDecl _, c, d, c' | _, .classDecl _, c, d, c'
  | _, .varDecl, c, d, c' | _, .constDecl, c, d, c' | _, .extendsDecl, c, d, c'
  | _, .classNameDecl, c, d, c' | _, .signalDecl, c, d, c' | _, .enumDecl, c, d, c' =>
    Block.Nest c.location.offset c'.location.offset d.bodies
  | _, .stmt _, c, s, c' | _, .ifStmt _, c, s, c' | _, .whileStmt _, c, s, c'
  | _, .forStmt _, c, s, c' | _, .matchStmt _, c, s, c' | _, .assignStmt, c, s, c'
  | _, .returnStmt, c, s, c' | _, .passStmt, c, s, c' =>
    Block.Nest c.location.offset c'.location.offset s.bodies
  | _, .condition _, c, b, c' | _, .elifBranch _, c, b, c' | _, .matchCase _, c, b, c' =>
    Block.Nest c.location.offset c'.location.offset [b.block]
  | _, .elseBranch _, c, body, c' => Block.Nest c.location.offset c'.location.offset [body]
  | _, _, _, _, _ => True

/-- What the rules find lies between the cursors. -/
def Rule.AllNest (room : Nat) : Prop :=
  ∀ {α : Type} (rule : Rule α) (c : Cursor), Yields room (call rule) c (rule.Nests c)

section Rules

variable (hrules : Rule.AllNest room)

include hrules

/-- The block behind the colon of its header. -/
theorem Rule.AllNest.headed {α : Type} {f : Block → α} {bodies : α → List Block} (indent : Nat)
    (hf : ∀ body, bodies (f body) = [body]) :
    Grammar.Nests room (do
      expect ":"
      let body ← call (Rule.indentedBlock indent)
      return f body) bodies := by
  intro c
  refine ((advances_expect (by decide) c).and (yields_reaches room _ c)).bind ?_
  rintro _ c₁ ⟨hlt, hreaches⟩
  refine (hrules (.indentedBlock indent) c₁).bind fun body c₂ hbody => yields_pure ?_
  rw [hf body]
  exact hbody.nest (hreaches.offset_lt hlt)

/-! ### Declarations -/

namespace Declaration

theorem nests_functionDecl (indent : Nat) :
    Grammar.Nests room (functionDecl indent) Decl.bodies := by
  refine .after fun modifier => .after fun _ => .after fun _ => .after fun _ => .after fun found => ?_
  refine .after fun _ => .after fun args => .after fun _ => .after fun returnType => ?_
  exact hrules.headed indent fun _ => rfl

theorem nests_classDecl (indent : Nat) : Grammar.Nests room (classDecl indent) Decl.bodies := by
  refine .after fun _ => .after fun _ => .after fun found => .after fun _ => .after fun base => ?_
  exact hrules.headed indent fun _ => rfl

theorem nests_decl (indent : Nat) : Grammar.Nests room (decl indent) Decl.bodies := by
  refine nests_choice fun g hg => ?_
  simp only [List.mem_cons, List.not_mem_nil, or_false] at hg
  rcases hg with rfl | rfl | rfl | rfl | rfl | rfl | rfl | rfl <;> exact hrules _

end Declaration

/-! ### Statements -/

namespace Statement

theorem nests_condition (indent : Nat) :
    Grammar.Nests room (condition indent) fun b => [b.block] :=
  .after fun _ => .after fun _ => .after fun _ => hrules.headed indent fun _ => rfl

theorem nests_elseBody (indent : Nat) : Grammar.Nests room (elseBody indent) fun body => [body] := by
  refine .after fun _ => .after fun _ c => ?_
  refine ((advances_expect (by decide) c).and (yields_reaches room _ c)).bind ?_
  rintro _ c₁ ⟨hlt, hreaches⟩
  exact (hrules (.indentedBlock indent) c₁).mono fun body _ hbody =>
    hbody.nest (hreaches.offset_lt hlt)

/-- A loop has the block of its condition. -/
theorem nests_loop {word : Text} {f : Condition → Stmt} (indent : Nat)
    (hf : ∀ b, (f b).bodies = [b.block]) :
    Grammar.Nests room (do
      expectKeyword word
      let test ← call (Rule.condition indent)
      return f test) Stmt.bodies := by
  have hbranch : Grammar.Nests room (call (Rule.condition indent)) fun b => [b.block] :=
    hrules (.condition indent)
  exact .after fun _ => hbranch.map hf

theorem nests_elifBranch (indent : Nat) :
    Grammar.Nests room (elifBranch indent) fun found => found.toList.map Condition.block := by
  have hbranch : Grammar.Nests room (call (Rule.elifBranch indent)) fun b => [b.block] :=
    hrules (.elifBranch indent)
  refine .after fun word => ?_
  split
  · exact hbranch.map fun _ => rfl
  · exact nests_of_eq_nil (finds_pure rfl)

theorem nests_elseBranch (indent : Nat) :
    Grammar.Nests room (elseBranch indent) fun found => found.toList := by
  have hbody : Grammar.Nests room (call (Rule.elseBranch indent)) fun body => [body] :=
    hrules (.elseBranch indent)
  refine .after fun word => ?_
  split
  · exact hbody.map fun _ => rfl
  · exact nests_of_eq_nil (finds_pure rfl)

theorem nests_elifTurn (indent : Nat) (found : List Condition) (c : Cursor) :
    Yields room (elifTurn indent found) c fun next c' => ∃ more : List Condition,
      next.state.reverse = found.reverse ++ more ∧
        Block.Nest c.location.offset c'.location.offset (more.map Condition.block) := by
  refine (nests_elifBranch hrules indent c).bind fun branch c' hbranch => ?_
  cases branch with
  | none => exact yields_pure ⟨[], (List.append_nil _).symm, hbranch⟩
  | some b => exact yields_pure ⟨[b], List.reverse_cons, hbranch⟩

theorem nests_caseTurn (width : Nat) (found : List Condition) (c : Cursor) :
    Yields room (caseTurn width found) c fun next c' => ∃ more : List Condition,
      next.state.reverse = found.reverse ++ more ∧
        Block.Nest c.location.offset c'.location.offset (more.map Condition.block) := by
  refine (yields_reaches room _ c).bind fun sought c₁ hreaches => ?_
  split
  · exact (hrules (.matchCase width) c₁).bind fun b c₂ hb =>
      yields_pure ⟨[b], List.reverse_cons, hb.mono_left hreaches.offset_le⟩
  · exact yields_pure ⟨[], (List.append_nil _).symm, Block.nest_nil hreaches.offset_le⟩

omit hrules in
/-- Behind blocks that nest, those nest that the turns of a loop add to them. -/
theorem yields_turns {turn : List Condition → Grammar Rule (Next (List Condition))} {start : Nat}
    {bodies : List Block} (hbodies : Block.Nest start c.location.offset bodies)
    (hturn : ∀ found c, Yields room (turn found) c fun next c' => ∃ more : List Condition,
      next.state.reverse = found.reverse ++ more ∧
        Block.Nest c.location.offset c'.location.offset (more.map Condition.block)) :
    Yields room (iterate turn []) c fun found c' =>
      Block.Nest start c'.location.offset (bodies ++ found.reverse.map Condition.block) := by
  refine Yields.iterate (by simpa using hbodies) fun found c' hfound => ?_
  refine (hturn found c').mono ?_
  rintro next c'' ⟨more, hmore, hnest⟩
  rw [hmore, List.map_append, ← List.append_assoc]
  exact hfound.append hnest

theorem nests_ifStmt (indent : Nat) : Grammar.Nests room (ifStmt indent) Stmt.bodies := by
  rw [ifStmt_eq]
  refine .after fun _ c => (hrules (.condition indent) c).bind fun branch c₁ hbranch => ?_
  refine (yields_turns hbranch (nests_elifTurn hrules indent)).bind fun elifs c₂ helifs => ?_
  refine (nests_elseBranch hrules indent c₂).bind fun otherwise c₃ hotherwise => yields_pure ?_
  have hbodies : (Stmt.ifStmt branch elifs.reverse otherwise).bodies =
      ([branch.block] ++ elifs.reverse.map Condition.block) ++ otherwise.toList := by
    rw [Stmt.bodies, List.append_assoc, List.singleton_append]
  rw [hbodies]
  exact helifs.append hotherwise

theorem nests_matchStmt (indent : Nat) : Grammar.Nests room (matchStmt indent) Stmt.bodies := by
  rw [matchStmt_eq]
  refine .after fun _ => .after fun _ => .after fun subject => .after fun _ => .after fun _ => ?_
  refine .after fun width c => ?_
  refine (yields_turns (Block.nest_nil (Nat.le_refl _)) (nests_caseTurn hrules width)).bind ?_
  intro cases c₁ hcases
  split
  · exact yields_expected
  · exact yields_pure hcases

theorem nests_stmt (indent : Nat) : Grammar.Nests room (stmt indent) Stmt.bodies := by
  refine nests_choice fun g hg => ?_
  simp only [List.mem_cons, List.not_mem_nil, or_false] at hg
  rcases hg with rfl | rfl | rfl | rfl | rfl | rfl | rfl <;> exact hrules _

end Statement

/-! ### Lines -/

namespace Script

omit hrules in
/-- An item has the places where it starts and ends. -/
theorem yields_lineItem_span (indent : Nat) (c : Cursor) :
    Yields room (lineItem indent) c fun l c' => l.span = ⟨c.location, c'.location⟩ := by
  refine yields_here_bind (yields_choice fun g hg => ?_)
  simp only [List.mem_cons, List.not_mem_nil, or_false] at hg
  rcases hg with rfl | rfl | rfl
  all_goals
    exact (yields_reaches room _ c).bind fun _ _ _ => yields_here_bind (yields_pure rfl)

/-- An item takes a unit, and its blocks lie in it. -/
theorem yields_lineItem_fits (indent : Nat) (c : Cursor) :
    Yields room (lineItem indent) c fun l c' =>
      Block.Fits c.location.offset c'.location.offset [l] := by
  -- the blocks below lie between the ends of the item, whichever alternative it is
  have hitem : Yields room (lineItem indent) c fun l c' =>
      Block.Nest c.location.offset c'.location.offset l.bodies := by
    refine yields_here_bind (yields_choice fun g hg => ?_)
    simp only [List.mem_cons, List.not_mem_nil, or_false] at hg
    rcases hg with rfl | rfl | rfl
    · exact (hrules (.decl indent) c).bind fun d c' hd => yields_here_bind (yields_pure hd)
    · exact (hrules (.stmt indent) c).bind fun s c' hs => yields_here_bind (yields_pure hs)
    · refine (yields_reaches room _ c).bind fun e c' hreaches => ?_
      exact yields_here_bind (yields_pure (Block.nest_nil hreaches.offset_le))
  refine ((((yields_lineItem_span indent c).and hitem).and
    (advances_lineItem (Rule.allAdvance room) indent c)).and (yields_reaches room _ c)).mono ?_
  rintro l c' ⟨⟨⟨hspan, hnest⟩, hlt⟩, hreaches⟩
  have hfits := Block.fits_singleton (l := l) (by rw [hspan]; exact hreaches.offset_lt hlt)
    (by rwa [hspan])
  rwa [hspan] at hfits

theorem yields_lineTurn_fits (indent : Nat) (items : List Line) (c : Cursor) :
    Yields room (lineTurn indent items) c fun next c' => ∃ more : Block,
      next.state.reverse = items.reverse ++ more ∧
        Block.Fits c.location.offset c'.location.offset more := by
  -- a turn without a new item adds an empty stretch
  have hsame : ∀ c', c.Reaches c' → ∃ more : Block, items.reverse = items.reverse ++ more ∧
      Block.Fits c.location.offset c'.location.offset more :=
    fun c' hreaches => ⟨[], (List.append_nil _).symm, Block.fits_nil hreaches.offset_le⟩
  refine (yields_reaches room _ c).bind fun _ c₁ h₁ => ?_
  refine (yields_reaches room _ c₁).bind fun _ c₂ h₂ => yields_look_bind ?_
  split
  · exact yields_pure (hsame c₂ (h₁.trans h₂))
  refine (yields_reaches room _ c₂).bind fun found c₃ h₃ => ?_
  split
  · refine (yields_reaches room _ c₃).bind fun _ c₄ h₄ => yields_look_bind ?_
    have hreaches := ((h₁.trans h₂).trans h₃).trans h₄
    split
    · exact yields_pure (hsame c₄ hreaches)
    · refine (yields_lineItem_fits hrules indent c₄).bind fun item c₅ hitem => yields_pure ?_
      exact ⟨[item], List.reverse_cons, hitem.mono hreaches.offset_le (Nat.le_refl _)⟩
  · exact yields_expected

theorem yields_line_fits (indent : Nat) (c : Cursor) : Yields room (line indent) c fun lines c' =>
    Block.Fits c.location.offset c'.location.offset lines := by
  rw [line_eq]
  refine (yields_lineItem_fits hrules indent c).bind fun first c₁ hfirst => ?_
  refine Yields.bind (P := fun items c' =>
    Block.Fits c.location.offset c'.location.offset items.reverse)
    (Yields.iterate hfirst fun items c' hitems => ?_) fun _ _ hitems => yields_pure hitems
  refine (yields_lineTurn_fits hrules indent items c').mono ?_
  rintro next c'' ⟨more, hmore, hfits⟩
  rw [hmore]
  exact hitems.append hfits

omit hrules in
/-- A comment takes its sign at least. -/
theorem yields_commentLine_fits (h : c.ahead.isCommentLine = true) :
    Yields room commentLine c fun l c' =>
      Block.Fits c.location.offset c'.location.offset [l] := by
  obtain ⟨gap, body, rest, hahead, hgap, -, -⟩ := Text.exists_of_isCommentLine h
  refine ((yields_reaches room _ c).and (Yields.mono (P := fun _ c₁ =>
    c₁.ahead = CodeUnit.hash :: (body ++ rest)) (yields_read fun _ n hread => ?_)
    fun _ _ h => h)).bind ?_
  · cases hread
    rw [Cursor.ahead_advanceBy, hahead, Text.gapLength,
      Text.takeWhile_append hgap (Text.avoids_cons.mpr rfl), List.drop_left]
  rintro _ c₁ ⟨h₁, hhash⟩
  refine yields_here_bind (Yields.bind (P := fun _ c₂ => c₁.location.offset < c₂.location.offset)
    (yields_read fun text n hread => ?_) fun text c₂ hlt => ?_)
  · -- the comment takes its sign at least, so the line is no empty stretch
    simp only [hhash, Reader.comment, Text.comment?, beq_self_eq_true, if_true] at hread
    cases hread
    refine (Cursor.reaches_advanceBy c₁ _).offset_lt ?_
    rw [Cursor.ahead_advanceBy, List.length_drop, hhash, List.length_cons, List.length_cons]
    omega
  · have hfits := Block.fits_singleton (l := .comment (text.getD []) ⟨c₁.location, c₂.location⟩) hlt
      (Block.nest_nil (Nat.le_of_lt hlt))
    exact yields_here_bind (yields_pure (hfits.mono h₁.offset_le (Nat.le_refl _)))

/-! ### Blocks -/

theorem yields_blockTurn_fits (level : Nat) (required : Bool) (lines : Block) (c : Cursor) :
    Yields room (blockTurn level required lines) c fun next c' => ∃ more : Block,
      next.state.reverse = lines.reverse ++ more ∧
        Block.Fits c.location.offset c'.location.offset more := by
  have hover := reaches_passOver level c
  have hline : Yields room (call (Rule.line level)) ((passOver level c).advanceBy level)
      fun items c' => Block.Fits c.location.offset c'.location.offset items :=
    (hrules (.line level) _).mono fun _ _ hitems => Block.Fits.mono hitems
      (hover.trans (Cursor.reaches_advanceBy _ level)).offset_le (Nat.le_refl _)
  -- whether code is required decides what a misplaced line means, not where lines stand
  have hfound : ∀ must, Yields room (blockLine level must) c fun found c' =>
      Block.Fits c.location.offset c'.location.offset (found.getD []) := by
    have hnone : Block.Fits c.location.offset c.location.offset [] := Block.fits_nil (Nat.le_refl _)
    refine fun must => yields_of_leads fun journal => leads_blockLine (fun _ => hnone)
      (fun hcomment => ?_) (fun _ _ _ => hnone) (fun _ _ _ => leads_of_yields hline)
      fun _ _ _ => leads_of_yields (Yields.attempt (hline.mono fun _ _ hitems => hitems) hnone)
    exact leads_of_yields ((yields_commentLine_fits hcomment).mono
      fun l c' hl => hl.mono hover.offset_le (Nat.le_refl _))
  refine (hfound _).bind fun found c' hmore => ?_
  cases found with
  | none => exact yields_pure ⟨[], (List.append_nil _).symm, hmore⟩
  | some more =>
    refine yields_pure ⟨more, ?_, hmore⟩
    rw [Next.state, List.reverse_append, List.reverse_reverse]

theorem yields_block_fits (level : Nat) (required : Bool) (c : Cursor) :
    Yields room (block level required) c fun lines c' =>
      Block.Fits c.location.offset c'.location.offset lines := by
  rw [block_eq]
  refine Yields.bind (P := fun (lines : Block) c' =>
    Block.Fits c.location.offset c'.location.offset lines.reverse)
    (Yields.iterate (Block.fits_nil (Nat.le_refl _)) fun lines c' hlines => ?_)
    fun _ _ hlines => yields_pure hlines
  refine (yields_blockTurn_fits hrules level required lines c').mono ?_
  rintro next c'' ⟨more, hmore, hfits⟩
  rw [hmore]
  exact hlines.append hfits

theorem yields_indentedBlock_fits (header : Nat) (c : Cursor) :
    Yields room (indentedBlock header) c fun body c' =>
      Block.Fits c.location.offset c'.location.offset body :=
  (yields_reaches room _ c).bind fun level c₁ hreaches => (hrules (.block level true) c₁).mono
    fun _ _ hbody => Block.Fits.mono hbody hreaches.offset_le (Nat.le_refl _)

theorem yields_file_fits (c : Cursor) : Yields room file c fun lines c' =>
    Block.Fits c.location.offset c'.location.offset lines := by
  refine (hrules (.block 0 false) c).bind fun lines c₁ hlines => ?_
  refine (yields_reaches room _ c₁).bind fun ended c₂ hreaches => ?_
  split
  · exact yields_pure (Block.Fits.mono hlines (Nat.le_refl _) hreaches.offset_le)
  · exact Yields.blame (Yields.bind (P := fun _ _ => True) (fun _ _ _ _ _ _ => trivial)
      fun _ c₃ _ => yields_read fun _ n hread => absurd hread (by simp [trailing]))

end Script

/-! ### Every rule -/

theorem Rule.yields_body_nests {α : Type} (rule : Rule α) (c : Cursor) :
    Yields room rule.body c (rule.Nests c) := by
  have hbranch : ∀ indent, Grammar.Nests room (call (Rule.condition indent)) fun b => [b.block] :=
    fun indent => hrules (.condition indent)
  cases rule with
  | file => exact Script.yields_file_fits hrules c
  | block level required => exact Script.yields_block_fits hrules level required c
  | indentedBlock header => exact Script.yields_indentedBlock_fits hrules header c
  | line indent => exact Script.yields_line_fits hrules indent c
  | decl indent => exact Declaration.nests_decl hrules indent c
  | varDecl => exact nests_of_eq_nil Declaration.finds_varDecl_bodies c
  | constDecl => exact nests_of_eq_nil Declaration.finds_constDecl_bodies c
  | extendsDecl => exact nests_of_eq_nil Declaration.finds_extendsDecl_bodies c
  | classNameDecl => exact nests_of_eq_nil Declaration.finds_classNameDecl_bodies c
  | signalDecl => exact nests_of_eq_nil Declaration.finds_signalDecl_bodies c
  | enumDecl => exact nests_of_eq_nil Declaration.finds_enumDecl_bodies c
  | functionDecl indent => exact Declaration.nests_functionDecl hrules indent c
  | classDecl indent => exact Declaration.nests_classDecl hrules indent c
  | stmt indent => exact Statement.nests_stmt hrules indent c
  | ifStmt indent => exact Statement.nests_ifStmt hrules indent c
  | elifBranch indent => exact Nests.after (fun _ => hbranch indent) c
  | elseBranch indent => exact Statement.nests_elseBody hrules indent c
  | whileStmt indent => exact Statement.nests_loop hrules indent (fun _ => rfl) c
  | forStmt indent => exact Statement.nests_loop hrules indent (fun _ => rfl) c
  | matchStmt indent => exact Statement.nests_matchStmt hrules indent c
  | matchCase indent => exact hbranch indent c
  | assignStmt => exact nests_of_eq_nil Statement.finds_assignStmt_bodies c
  | returnStmt => exact nests_of_eq_nil Statement.finds_returnStmt_bodies c
  | passStmt => exact nests_of_eq_nil Statement.finds_passStmt_bodies c
  | condition indent => exact Statement.nests_condition hrules indent c
  -- the rules of expressions find no block
  | _ => exact fun _ _ _ _ _ _ => trivial

end Rules

/-- What every rule finds lies between the cursors, with any room. -/
theorem Rule.allNest (room : Nat) : Rule.AllNest room :=
  yields_call_of_bodies (S := fun rule c => Rule.Nests rule c)
    (fun _ hrules _ rule c => Rule.yields_body_nests hrules rule c) room

namespace Script

variable {source : Text} {depth : Option Int} {block : Block}

/-- The lines of a script lie in its text in their order, and are nested. -/
theorem fits_of_parse (h : parse source depth = .ok block) : block.Fits 0 source.length := by
  obtain ⟨c', hfits, hreaches⟩ := exists_found_of_parse h fun room =>
    (Rule.allNest room .file _).and (yields_reaches room _ _)
  exact Block.Fits.mono hfits (Nat.zero_le _)
    ((Cursor.isIn_ofText source).reaches hreaches).offset_le

/--
In a script and in every block of it the lines are proper stretches of the text that do not overlap,
and the blocks of a line lie inside it, each one behind those before it.
-/
theorem isLaidOut_of_parse (h : parse source depth = .ok block) :
    block.IsLaidOut source ∧ ∀ inner : Block, inner.Within block → inner.IsLaidOut source := by
  have hfits := fits_of_parse h
  refine ⟨hfits.isNested.isLaidOut hfits.inOrder, fun inner hinner => ?_⟩
  exact (hinner.isNested hfits.isNested).isLaidOut ((inOrder_of_parse h).2 inner hinner)

/-- Three branches, with a comment and an empty line between them. -/
theorem isLaidOut_of_parse_elif : ∃ block,
    parse "if a:\n b\n# c\nelif d:\n e; f\n\nelse:\n g\n" none = .ok block ∧
      block.IsLaidOut "if a:\n b\n# c\nelif d:\n e; f\n\nelse:\n g\n" ∧
      ∀ inner : Block, inner.Within block →
        inner.IsLaidOut "if a:\n b\n# c\nelif d:\n e; f\n\nelse:\n g\n" := by
  have hok : (parse "if a:\n b\n# c\nelif d:\n e; f\n\nelse:\n g\n" none).isOk = true := by
    decide +kernel
  cases hparse : parse "if a:\n b\n# c\nelif d:\n e; f\n\nelse:\n g\n" none with
  | ok block => exact ⟨block, rfl, isLaidOut_of_parse hparse⟩
  | error failure =>
    rw [hparse] at hok
    exact Bool.noConfusion hok

end Script

end GDScript
