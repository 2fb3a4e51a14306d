import GDScript.Proofs.Report.Stop
import GDScript.Proofs.Settling

/-!
# Blocks that give a line up

A block that gives up on a line of its indentation ends before it. The levels of nested blocks get
greater and greater, so every block around it finds that line indented more than its own lines, every
`match` more than its cases and every `if` more than its `elif` and `else`: the cursor is stuck before
the line (`Cursor.IsStuck`). Nothing takes it up again, up to the file, which does not end there
(`Script.fails_of_gaveUp`).
-/

namespace GDScript

open Grammar

/-! ### Where nothing goes on -/

/-- The cursor is at the end of a line, and the next line of code is indented by `width` at least. -/
structure Cursor.IsStuck (width : Nat) (c : Cursor) : Prop where
  atLineEnd : c.ahead.atLineEnd = true
  nextCode_ne_nil : c.ahead.nextCode ≠ []
  le_indentation : width ≤ c.ahead.nextCode.indentation

namespace Cursor.IsStuck

variable {width width' : Nat} {c c' : Cursor}

theorem of_le (h : c.IsStuck width) (hle : width' ≤ width) : c.IsStuck width' :=
  ⟨h.atLineEnd, h.nextCode_ne_nil, Nat.le_trans hle h.le_indentation⟩

/-- No line of a lesser width comes next. -/
theorem indentation_ne (h : c.IsStuck (width + 1)) (hle : width' ≤ width) :
    c.ahead.nextCode.indentation ≠ width' := by
  have hlt := h.le_indentation
  omega

/-- Behind what leaves the next line of code as it is, the cursor is still stuck. -/
theorem of_nextCode_eq (h : c.IsStuck width) (hend : c'.ahead.atLineEnd = true)
    (hsame : c'.ahead.nextCode = c.ahead.nextCode) : c'.IsStuck width :=
  ⟨hend, hsame ▸ h.nextCode_ne_nil, hsame ▸ h.le_indentation⟩

end Cursor.IsStuck

/-! ### What is said of the rules -/

/-- Where a rule ends in which something has been given up. -/
def Rule.StopsAt : {α : Type} → Rule α → Cursor → Prop
  | _, .block level required, c => c.ahead.nextCode ≠ [] ∧ (required = true → c.IsStuck level)
  | _, .indentedBlock indent, c | _, .line indent, c | _, .decl indent, c
  | _, .functionDecl indent, c | _, .classDecl indent, c | _, .stmt indent, c | _, .ifStmt indent, c
  | _, .elifBranch indent, c | _, .elseBranch indent, c | _, .whileStmt indent, c
  | _, .forStmt indent, c | _, .matchStmt indent, c | _, .matchCase indent, c
  | _, .condition indent, c => c.IsStuck (indent + 1)
  | _, _, _ => False

/-- The rule reads a part of a script. -/
def Rule.IsPart : {α : Type} → Rule α → Prop
  | _, .file => False
  | _, _ => True

/-- Every rule that reads a part of a script settles, where it stops. -/
def Rule.AllSettle (room : Nat) : Prop :=
  ∀ {α : Type} (rule : Rule α) (c : Cursor), rule.IsPart →
    Settles room (call rule) c fun _ c' => rule.StopsAt c'

theorem Rule.IsPlain.not_stopsAt {α : Type} {rule : Rule α} (h : rule.IsPlain) (c : Cursor) :
    ¬rule.StopsAt c := by
  cases rule <;> first | exact id | exact h.elim

theorem Rule.IsPlain.isPart {α : Type} {rule : Rule α} (h : rule.IsPlain) : rule.IsPart := by
  cases rule <;> trivial

section Rules

variable {room : Nat} {c : Cursor} (hrules : Rule.AllSettle room)

include hrules

theorem Rule.AllSettle.plain {α : Type} {g : Grammar Rule α} (hg : Uses plainMeans g) :
    Settles room g c fun _ _ => False :=
  hg.settles id fun rule c hrule => (hrules rule c hrule.isPart).mono fun _ c' =>
    hrule.not_stopsAt c'

/-- A part that reads no block comes first. -/
theorem Rule.AllSettle.plain_bind {α β : Type} {g : Grammar Rule α} {f : α → Grammar Rule β}
    {P : β → Cursor → Prop} (hg : Uses plainMeans g) (hf : ∀ v c', Settles room (f v) c' P) :
    Settles room (g >>= f) c P :=
  (hrules.plain hg).bind hf fun _ _ hP => hP.elim

/-- A rule comes last, and what it has found is returned. -/
theorem Rule.AllSettle.call_bind {α β : Type} (rule : Rule α) (hpart : rule.IsPart) {f : α → β} :
    Settles room (call rule >>= fun v => Pure.pure (f v)) c fun _ c' => rule.StopsAt c' :=
  (hrules rule c hpart).bind (fun _ _ => settles_pure) fun _ _ hstop => stays_pure hstop

/-! ### Declarations -/

namespace Declaration

open Expression

theorem settles_functionDecl (indent : Nat) :
    Settles room (functionDecl indent) c fun _ c' => c'.IsStuck (indent + 1) := by
  -- the head of a function reads no block; only what it governs can give something up
  refine hrules.plain_bind (by simp) fun modifier c => ?_
  refine hrules.plain_bind (by simp) fun _ c => ?_
  refine hrules.plain_bind (by simp) fun _ c => ?_
  refine hrules.plain_bind (by simp) fun _ c => ?_
  refine hrules.plain_bind uses_name fun found c => ?_
  refine hrules.plain_bind (by simp) fun _ c => ?_
  refine hrules.plain_bind uses_functionArgs fun args c => ?_
  refine hrules.plain_bind (by simp) fun _ c => ?_
  refine hrules.plain_bind (uses_typeAfter (Reader.isSilent_consume "->").isHonest) fun returnType c => ?_
  refine hrules.plain_bind (by simp) fun _ c => ?_
  exact hrules.call_bind (.indentedBlock indent) trivial

theorem settles_classDecl (indent : Nat) :
    Settles room (classDecl indent) c fun _ c' => c'.IsStuck (indent + 1) := by
  refine hrules.plain_bind (by simp) fun _ c => ?_
  refine hrules.plain_bind (by simp) fun _ c => ?_
  refine hrules.plain_bind uses_name fun found c => ?_
  refine hrules.plain_bind (by simp) fun _ c => ?_
  refine hrules.plain_bind (uses_typeAfter (Reader.isSilent_keyword "extends").isHonest) fun base c => ?_
  refine hrules.plain_bind (by simp) fun _ c => ?_
  exact hrules.call_bind (.indentedBlock indent) trivial

theorem settles_decl (indent : Nat) :
    Settles room (decl indent) c fun _ c' => c'.IsStuck (indent + 1) := by
  refine settles_choice (by simp) fun g hg => ?_
  simp only [List.mem_cons, List.not_mem_nil, or_false] at hg
  rcases hg with rfl | rfl | rfl | rfl | rfl | rfl | rfl | rfl
  case inr.inr.inr.inr.inl => exact hrules (.classDecl indent) c trivial
  case inr.inr.inr.inr.inr.inl => exact hrules (.functionDecl indent) c trivial
  all_goals exact (hrules.plain (by simp [Rule.IsPlain])).mono fun _ _ hnone => hnone.elim

end Declaration

/-! ### Statements -/

namespace Statement

theorem settles_condition (indent : Nat) :
    Settles room (condition indent) c fun _ c' => c'.IsStuck (indent + 1) := by
  refine hrules.plain_bind (by simp) fun _ c => ?_
  refine hrules.plain_bind Expression.uses_expr fun test c => ?_
  refine hrules.plain_bind (by simp) fun _ c => ?_
  refine hrules.plain_bind (by simp) fun _ c => ?_
  exact hrules.call_bind (.indentedBlock indent) trivial

theorem settles_elifBody (indent : Nat) :
    Settles room (elifBody indent) c fun _ c' => c'.IsStuck (indent + 1) :=
  hrules.plain_bind (by simp) fun _ c => hrules (.condition indent) c trivial

theorem settles_elseBody (indent : Nat) :
    Settles room (elseBody indent) c fun _ c' => c'.IsStuck (indent + 1) := by
  refine hrules.plain_bind (by simp) fun _ c => ?_
  refine hrules.plain_bind (by simp) fun _ c => ?_
  refine hrules.plain_bind (by simp) fun _ c => ?_
  exact hrules (.indentedBlock indent) c trivial

theorem settles_elifTurn (indent : Nat) (found : List Condition) :
    Settles room (elifTurn indent found) c fun _ c' => c'.IsStuck (indent + 1) := by
  refine Settles.bind (P := fun _ c' => c'.IsStuck (indent + 1)) ?_ (fun branch c => ?_)
    fun branch c' hstuck => ?_
  · refine hrules.plain_bind (by simp [seekContinuation]) fun more c => ?_
    split
    · exact hrules.call_bind (.elifBranch indent) trivial
    · exact settles_pure
  · cases branch <;> exact settles_pure
  · cases branch <;> exact stays_pure hstuck

theorem settles_elseBranch (indent : Nat) :
    Settles room (elseBranch indent) c fun _ c' => c'.IsStuck (indent + 1) := by
  refine hrules.plain_bind (by simp [seekContinuation]) fun more c => ?_
  split
  · exact hrules.call_bind (.elseBranch indent) trivial
  · exact settles_pure

theorem settles_ifStmt (indent : Nat) :
    Settles room (ifStmt indent) c fun _ c' => c'.IsStuck (indent + 1) := by
  -- what is given up in a branch leaves the loop and the last branch with nothing to take
  have hturn : ∀ (found : List Condition) (c : Cursor), c.IsStuck (indent + 1) →
      Stays room (elifTurn indent found) c fun _ c' => c'.IsStuck (indent + 1) :=
    fun found c h => (stays_elifTurn found fun heq => absurd heq (h.indentation_ne le_rfl)).mono
      fun _ _ hc' => hc'.2.symm ▸ h
  have hrest : ∀ (branch : Condition) (elifs : List Condition) (c : Cursor),
      c.IsStuck (indent + 1) → Stays room (do
        let otherwise ← elseBranch indent
        return Stmt.ifStmt branch elifs.reverse otherwise) c fun _ c' => c'.IsStuck (indent + 1) :=
    fun _ _ c h => (stays_elseBranch fun heq => absurd heq (h.indentation_ne le_rfl)).bind
      fun _ _ hc' => stays_pure (hc'.2.symm ▸ h)
  rw [ifStmt_eq]
  refine hrules.plain_bind (by simp) fun _ c => ?_
  refine (hrules (.condition indent) c trivial).bind (fun branch c => ?_) fun branch c hstuck => ?_
  · refine (Settles.loop (P := fun _ c' => c'.IsStuck (indent + 1))
      (fun found c => settles_elifTurn hrules indent found) hturn).bind (fun elifs c => ?_)
        (hrest branch)
    exact (settles_elseBranch hrules indent).bind (fun _ _ => settles_pure) fun _ _ h => stays_pure h
  · exact (Stays.loop (P := fun _ c' => c'.IsStuck (indent + 1)) hstuck hturn).bind (hrest branch)

theorem settles_whileStmt (indent : Nat) :
    Settles room (whileStmt indent) c fun _ c' => c'.IsStuck (indent + 1) :=
  hrules.plain_bind (by simp) fun _ _ => hrules.call_bind (.condition indent) trivial

theorem settles_forStmt (indent : Nat) :
    Settles room (forStmt indent) c fun _ c' => c'.IsStuck (indent + 1) :=
  hrules.plain_bind (by simp) fun _ _ => hrules.call_bind (.condition indent) trivial

omit hrules in
/-- What a header governs is indented more than the header. -/
theorem yields_blockOpening_lt (header : Nat) (c : Cursor) :
    Yields room (blockOpening header) c fun width _ => header < width := by
  refine Yields.bind (P := fun _ _ => True) (fun _ _ _ _ _ _ => trivial) fun _ c _ => ?_
  refine Yields.bind (P := fun _ _ => True) (fun _ _ _ _ _ _ => trivial) fun _ c _ => ?_
  refine yields_look_bind ?_
  split
  · refine Yields.bind (P := fun _ _ => True) (fun _ _ _ _ _ _ => trivial) fun _ c _ => ?_
    refine yields_read fun width n hread => ?_
    simp only [Reader.bodyIndent] at hread
    split_ifs at hread with _ hlt
    rwa [← (Reading.took.inj hread).1]
  · exact yields_expected

theorem settles_blockOpening (header : Nat) :
    Settles room (blockOpening header) c fun _ _ => False := by
  refine hrules.plain_bind (by simp) fun _ c => ?_
  refine hrules.plain_bind (by simp) fun _ c => ?_
  refine hrules.plain_bind (by simp) fun ended c => ?_
  split
  · exact hrules.plain_bind (by simp) fun _ c => settles_read
  · exact settles_read

/-- A `match` that is stuck in a case has no further one, but that one at least. -/
theorem settles_matchStmt (indent : Nat) :
    Settles room (matchStmt indent) c fun _ c' => c'.IsStuck (indent + 1) := by
  rw [matchStmt_eq]
  refine hrules.plain_bind (by simp) fun _ c => ?_
  refine hrules.plain_bind (by simp) fun _ c => ?_
  refine hrules.plain_bind Expression.uses_expr fun subject c => ?_
  refine hrules.plain_bind (by simp) fun _ c => ?_
  refine hrules.plain_bind (by simp) fun _ c => ?_
  refine (settles_blockOpening hrules indent).bind_quiet (yields_blockOpening_lt indent c)
    fun width c hwidth => ?_
  -- the case in which something is given up has been read, so the cases are not missing
  refine Settles.bind (P := fun cases c' => cases ≠ [] ∧ c'.IsStuck (width + 1))
    (Settles.loop (fun found c => ?_) fun found c h => ?_) (fun cases c => ?_) fun cases c h => ?_
  · refine hrules.plain_bind (by simp [seekLine]) fun more c => ?_
    split
    · refine (hrules (.matchCase width) c trivial).bind (fun _ _ => settles_pure)
        fun branch c' hstuck => stays_pure ⟨List.cons_ne_nil _ _, hstuck⟩
    · exact settles_pure
  · refine (stays_caseTurn found (h.2.indentation_ne le_rfl)).mono ?_
    rintro _ _ ⟨rfl, rfl⟩
    exact h
  · split
    · exact settles_read
    · exact settles_pure
  · have hne : ¬cases.isEmpty = true := fun hnil => h.1 (List.isEmpty_iff.mp hnil)
    rw [if_neg hne]
    exact stays_pure (h.2.of_le (by omega))

theorem settles_stmt (indent : Nat) :
    Settles room (stmt indent) c fun _ c' => c'.IsStuck (indent + 1) := by
  refine settles_choice (by simp) fun g hg => ?_
  simp only [List.mem_cons, List.not_mem_nil, or_false] at hg
  rcases hg with rfl | rfl | rfl | rfl | rfl | rfl | rfl
  case inl => exact hrules (.ifStmt indent) c trivial
  case inr.inl => exact hrules (.whileStmt indent) c trivial
  case inr.inr.inl => exact hrules (.forStmt indent) c trivial
  case inr.inr.inr.inl => exact hrules (.matchStmt indent) c trivial
  all_goals exact (hrules.plain (by simp [Rule.IsPlain])).mono fun _ _ hnone => hnone.elim

end Statement

/-! ### Lines -/

namespace Script

theorem settles_lineItem (indent : Nat) :
    Settles room (lineItem indent) c fun _ c' => c'.IsStuck (indent + 1) := by
  refine hrules.plain_bind (by simp) fun start c => settles_choice (by simp) fun g hg => ?_
  simp only [List.mem_cons, List.not_mem_nil, or_false] at hg
  rcases hg with rfl | rfl | rfl
  · refine (hrules (.decl indent) c trivial).bind (fun found c => ?_) fun found c h => ?_
    · exact hrules.plain_bind (by simp) fun _ _ => settles_pure
    · exact stays_here_bind (stays_pure h)
  · refine (hrules (.stmt indent) c trivial).bind (fun found c => ?_) fun found c h => ?_
    · exact hrules.plain_bind (by simp) fun _ _ => settles_pure
    · exact stays_here_bind (stays_pure h)
  · refine hrules.plain_bind Expression.uses_expr fun found c => ?_
    exact hrules.plain_bind (by simp) fun _ _ => settles_pure

theorem settles_lineTurn (indent : Nat) (items : List Line) :
    Settles room (lineTurn indent items) c fun _ c' => c'.IsStuck (indent + 1) := by
  refine hrules.plain_bind (by simp) fun _ c => ?_
  refine hrules.plain_bind (by simp) fun _ c => ?_
  refine hrules.plain_bind (by simp) fun ended c => ?_
  split
  · exact settles_pure
  refine hrules.plain_bind (by simp) fun semicolon c => ?_
  split
  · refine hrules.plain_bind (by simp) fun _ c => ?_
    refine hrules.plain_bind (by simp) fun ended' c => ?_
    split
    · exact settles_pure
    · exact (settles_lineItem hrules indent).bind (fun _ _ => settles_pure) fun _ _ h => stays_pure h
  · exact settles_read

theorem settles_line (indent : Nat) :
    Settles room (line indent) c fun _ c' => c'.IsStuck (indent + 1) := by
  -- behind an item that is stuck the line ends
  have hturn : ∀ (items : List Line) (c : Cursor), c.IsStuck (indent + 1) →
      Stays room (lineTurn indent items) c fun _ c' => c'.IsStuck (indent + 1) :=
    fun items c h => (stays_lineTurn indent items h.atLineEnd).mono fun _ _ hc' => hc'.2.symm ▸ h
  rw [line_eq]
  refine (settles_lineItem hrules indent).bind (fun first c => ?_) fun first c h => ?_
  · exact (Settles.loop (P := fun _ c' => c'.IsStuck (indent + 1))
      (fun items c => settles_lineTurn hrules indent items) hturn).bind (fun _ _ => settles_pure)
        fun _ _ h => stays_pure h
  · exact (Stays.loop (P := fun _ c' => c'.IsStuck (indent + 1)) h hturn).bind
      fun _ _ h => stays_pure h

/-! ### Blocks -/

/-- A line that is given up is the next line of code, at the level of the block. -/
theorem settles_blockLine (level : Nat) (required : Bool) :
    Settles room (blockLine level required) c fun found c' =>
      match found with
      | some _ => c'.IsStuck (level + 1)
      | none => required = false ∧ c.ahead.nextCode ≠ [] ∧ c.ahead.nextCode.indentation = level := by
  refine fun journal hquiet => leads_blockLine (fun _ hgave => absurd hgave hquiet)
    (fun _ => leads_commentLine fun _ _ hgave => absurd hgave hquiet)
    (fun _ _ _ hgave => absurd hgave (Journal.not_gaveUp_cons hquiet (by simp)))
    (fun _ _ _ => hrules (.line level) _ trivial journal hquiet) fun hrequired hempty hlevel => ?_
  refine (hrules (.line level) _ trivial journal hquiet).attempt (fun e journal' he _ _ => ?_)
    fun _ _ _ hfinal => hfinal
  -- behind what is passed over there is the line of code that was tried
  refine ⟨hrequired, ?_⟩
  rw [← nextCode_passOver level c, Text.nextCode_of_isEmptyLine_eq_false hempty]
  refine ⟨fun hnil => ?_, hlevel⟩
  rw [hnil] at hempty
  exact absurd hempty (by decide)

theorem settles_block (level : Nat) (required : Bool) :
    Settles room (block level required) c fun _ c' =>
      c'.ahead.nextCode ≠ [] ∧ (required = true → c'.IsStuck level) := by
  rw [block_eq]
  refine Settles.bind (P := fun _ c' => c'.ahead.nextCode ≠ [] ∧ (required = true →
    c'.IsStuck level)) (fun journal hquiet => ?_) (fun _ _ => settles_pure) fun _ _ h => stays_pure h
  have hstop : ∀ {c : Cursor}, c.IsStuck (level + 1) →
      c.ahead.nextCode ≠ [] ∧ (required = true → c.IsStuck level) :=
    fun h => ⟨h.nextCode_ne_nil, fun _ => h.of_le (Nat.le_succ level)⟩
  -- a line that is given up ends the loop, so before a turn only a line that was read can be stuck
  refine Leads.loop (I := fun lines c' journal' => (lines ≠ [] → c'.ahead.atLineEnd = true) ∧
    (journal'.GaveUp → c'.IsStuck (level + 1))) ⟨fun h => absurd rfl h, fun h => absurd h hquiet⟩
    (fun _ _ _ hI hgave => hstop (hI.2 hgave)) fun lines c' journal' hI => ?_
  by_cases hgave : journal'.GaveUp
  · have hstuck := hI.2 hgave
    refine Leads.bind ((stays_blockLine _ hstuck.atLineEnd
      (.inr (hstuck.indentation_ne le_rfl)) journal').mono
        (fun _ _ _ h => hstuck.of_nextCode_eq h.1 h.2) fun _ _ hE => hE.elim) ?_
    rintro (_ | found) c'' journal'' h
    · exact leads_pure fun _ => hstop h
    · exact leads_pure ⟨fun _ => h.atLineEnd, fun _ => h⟩
  · refine Leads.bind ((settles_blockLine hrules level _ journal' hgave).and_yields
      (yields_blockLine_atLineEnd level _ c')) ?_
    rintro (_ | found) c'' journal'' ⟨hfound, hsettled⟩
    · obtain rfl : c'' = c' := hfound
      refine leads_pure fun hgave' => ?_
      obtain ⟨hrequired, hne, hlevel⟩ := hsettled hgave'
      refine ⟨hne, fun hreq => ⟨hI.1 fun hnil => ?_, hne, hlevel.ge⟩⟩
      rw [hreq, hnil] at hrequired
      exact absurd hrequired (by decide)
    · exact leads_pure ⟨fun _ => hfound.1, hsettled⟩

theorem settles_indentedBlock (header : Nat) :
    Settles room (indentedBlock header) c fun _ c' => c'.IsStuck (header + 1) :=
  (Statement.settles_blockOpening hrules header).bind_quiet
    (Statement.yields_blockOpening_lt header c) fun level c' hlevel =>
      (hrules (.block level true) c' trivial).mono fun _ _ hstop => (hstop.2 rfl).of_le hlevel

end Script

theorem Rule.settles_body {α : Type} (rule : Rule α) (hpart : rule.IsPart) :
    Settles room rule.body c fun _ c' => rule.StopsAt c' := by
  by_cases hplain : rule.IsPlain
  · exact (hrules.plain (uses_body hplain)).mono fun _ _ hnone => hnone.elim
  -- one case for each rule that reads a block, or another rule that does
  cases rule with
  | file => exact hpart.elim
  | block level required => exact Script.settles_block hrules level required
  | indentedBlock header => exact Script.settles_indentedBlock hrules header
  | line indent => exact Script.settles_line hrules indent
  | decl indent => exact Declaration.settles_decl hrules indent
  | functionDecl indent => exact Declaration.settles_functionDecl hrules indent
  | classDecl indent => exact Declaration.settles_classDecl hrules indent
  | stmt indent => exact Statement.settles_stmt hrules indent
  | ifStmt indent => exact Statement.settles_ifStmt hrules indent
  | elifBranch indent => exact Statement.settles_elifBody hrules indent
  | elseBranch indent => exact Statement.settles_elseBody hrules indent
  | whileStmt indent => exact Statement.settles_whileStmt hrules indent
  | forStmt indent => exact Statement.settles_forStmt hrules indent
  | matchStmt indent => exact Statement.settles_matchStmt hrules indent
  | matchCase indent => exact hrules (.condition indent) c trivial
  | condition indent => exact Statement.settles_condition hrules indent
  | _ => exact absurd trivial hplain

end Rules

/-- Every rule that reads a part of a script settles. -/
theorem Rule.allSettle (room : Nat) : Rule.AllSettle room := by
  intro α rule c hpart journal hquiet
  refine leads_call_of_bodies (S := fun rule _ journal => rule.IsPart ∧ ¬journal.GaveUp)
    (T := fun rule _ _ _ c' journal' => journal'.GaveUp → rule.StopsAt c') (E := Failure.IsFinal)
    (fun _ _ _ _ _ _ => rfl) (fun room ih α rule c journal hS => ?_) room rule c journal
    ⟨hpart, hquiet⟩
  exact Rule.settles_body (fun rule c hpart journal hquiet => ih rule c journal ⟨hpart, hquiet⟩)
    rule hS.1 journal hS.2

/-! ### Scripts -/

namespace Script

variable {source : Text} {depth : Option Int}

/-- A file does not end where its lines have given something up. -/
theorem leads_file_quiet (room : Nat) (source : Text) :
    Leads room (call Rule.file) (Cursor.ofText source) [] (fun _ _ journal => ¬journal.GaveUp)
      fun _ _ => True := by
  refine leads_call (fun _ => trivial) fun room => ?_
  refine leads_file (P := fun _ c' journal' => journal'.GaveUp → c'.ahead.nextCode ≠ [])
    ((Rule.allSettle room (.block 0 false) _ trivial [] Journal.not_gaveUp_nil).mono
      (fun _ _ _ hstop hgave => (hstop hgave).1) fun _ _ _ => trivial)
    (fun _ _ _ _ hstop hnil _ hgave => hstop hgave hnil) fun _ _ _ _ _ _ _ => trivial

/--
A script in which a block gives up on a line is not read: no block around it, no `match`, no `if` and
no other alternative ever takes the line up again.
-/
theorem fails_of_gaveUp (h : (run source depth (call .file)).journal.GaveUp) :
    ∃ failure, parse source depth = .error failure := by
  have hmeets : (run source depth (call .file)).Meets _ _ := leads_file_quiet _ source _
  rw [parse]
  cases hrun : run source depth (call .file) with
  | finished lines c journal =>
    rw [hrun] at hmeets h
    exact absurd h hmeets
  | failed failure journal => exact ⟨failure, rfl⟩

/-- The block of an `if` gives up on its second line. -/
theorem fails_of_gaveUp_nested : (run "if a:\n b\n )" none (call .file)).journal.GaveUp ∧
    ∃ failure, parse "if a:\n b\n )" none = .error failure := by
  have hgave : (run "if a:\n b\n )" none (call .file)).journal.GaveUp := by decide +kernel
  exact ⟨hgave, fails_of_gaveUp hgave⟩

end Script

end GDScript
