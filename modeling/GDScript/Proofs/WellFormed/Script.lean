import GDScript.Proofs.WellFormed.Expression

/-!
# Scripts that are read are well formed

Declarations, statements, lines and blocks find well-formed trees when the rules do that they call,
so every rule does (`Rule.areSound`), at every depth limit and whatever the text is. For a whole
script this is `Script.isWellFormed_of_parse`.
-/

namespace GDScript

open Grammar

section Rules

variable {room : Nat} (hrules : Rule.AreSound room)

/-! ### Declarations -/

namespace Declaration

open Expression (finds_expr)

/-- A reader that looks for a text finds what such texts are. -/
theorem finds_require_lexeme {what : Text} {find : Text → Option Text} {P : Text → Prop}
    (h : ∀ t found, find t = some found → P found) :
    Finds room (require what (Reader.lexeme find) : Grammar Rule Text) P := by
  refine finds_require fun t name n hread => ?_
  unfold Reader.lexeme at hread
  split at hread
  · next found hfound =>
    obtain ⟨heq, -⟩ := Reading.took.inj hread
    obtain rfl := Option.some.inj heq
    exact h t found hfound
  · exact absurd hread (by simp)

theorem finds_name : Finds room Expression.name Text.IsName :=
  finds_require_lexeme fun _ _ h => (Text.isName_of_identifier? h).1

theorem finds_typeHint : Finds room Expression.typeHint (Text.IsChain CodeUnit.dot) :=
  finds_require_lexeme fun _ _ h => (Text.isChain_of_chain? h).1

/-- A type name that may be missing. -/
theorem finds_annotation :
    Finds room annotation fun found => ∀ hint ∈ found, hint.IsChain CodeUnit.dot := by
  refine Finds.after fun colon => ?_
  split
  · exact Finds.after fun _ => finds_typeHint.bind fun hint hhint => finds_pure (by simpa using hhint)
  · exact finds_pure (by simp)

/-- Of the two accessors either may be missing. -/
theorem finds_accessors : Finds room accessors fun names =>
    (∀ name ∈ names.1, name.IsName) ∧ ∀ name ∈ names.2, name.IsName := by
  refine Finds.after fun _ => Finds.bind (P := fun setter => ∀ name ∈ setter, name.IsName) ?_
    fun setter hsetter => Finds.after fun comma => ?_
  · refine Finds.after fun comma => ?_
    split
    · exact finds_pure (by simp)
    · exact finds_name.bind fun name hname => Finds.after fun _ => finds_pure (by simpa using hname)
  · split
    · exact Finds.after fun _ => finds_name.bind fun name hname =>
        finds_pure ⟨hsetter, by simpa using hname⟩
    · exact finds_pure ⟨hsetter, by simp⟩

theorem finds_setget : Finds room setget fun found => ∀ names ∈ found,
    (∀ name ∈ names.1, name.IsName) ∧ ∀ name ∈ names.2, name.IsName := by
  refine Finds.optional (Finds.after fun _ => Finds.after fun word => ?_)
  -- the word `setget` is there, or nothing is
  split
  · exact finds_accessors.bind fun names hnames => finds_pure (by simpa using hnames)
  · exact finds_pure (by simp)

theorem finds_signalParams :
    Finds room signalParams fun found => ∀ params ∈ found, ∀ p ∈ params, Text.IsName p := by
  refine Finds.optional (Finds.after fun _ => Finds.after fun opened => ?_)
  split
  · exact finds_name.parenthesized.bind fun params hparams => finds_pure (by simpa using hparams)
  · exact finds_pure (by simp)

theorem finds_argAnnotation :
    Finds room argAnnotation fun found => ∀ hint ∈ found, hint.IsChain CodeUnit.dot := by
  refine Finds.optional (Finds.after fun _ => Finds.after fun colon => ?_)
  split
  · exact Finds.after fun _ => Finds.after fun _ => finds_typeHint.bind fun hint hhint =>
      finds_pure (by simpa using hhint)
  · exact finds_pure (by simp)

theorem finds_typeAfter (reader : Reader Bool) :
    Finds room (typeAfter reader) fun found => ∀ hint ∈ found, hint.IsChain CodeUnit.dot := by
  refine Finds.after fun word => ?_
  split
  · exact Finds.after fun _ => finds_typeHint.bind fun hint hhint => Finds.after fun _ =>
      finds_pure (by simpa using hhint)
  · exact finds_pure (by simp)

/-- The path of a script keeps to the quote that it is written with. -/
theorem finds_extendsDecl : Finds room extendsDecl (Decl.IsWellFormed ["not"]) := by
  refine Finds.after fun _ => Finds.after fun _ => ?_
  refine Finds.bind (P := fun found => ∀ literal ∈ found, StringLiteral.IsValid literal)
    (finds_read fun t found n hread literal hmem => ?_) fun found hfound => ?_
  · rw [Option.mem_def.mp hmem] at hread
    exact (Reader.isValid_of_string hread).1
  · cases found with
    | some literal =>
      have htarget : (ExtendsTarget.path literal.body).IsWellFormed :=
        ⟨literal.quote, hfound literal rfl⟩
      exact finds_pure (.extendsDecl htarget)
    | none => exact finds_name.bind fun name hname =>
        finds_pure (.extendsDecl (show ExtendsTarget.IsWellFormed (.name name) from hname))

theorem finds_classNameDecl : Finds room classNameDecl (Decl.IsWellFormed ["not"]) :=
  Finds.after fun _ => Finds.after fun _ => finds_name.bind fun _ hname =>
    finds_pure (.classNameDecl hname)

theorem finds_signalDecl : Finds room signalDecl (Decl.IsWellFormed ["not"]) := by
  refine Finds.after fun _ => Finds.after fun _ => finds_name.bind fun name hname => ?_
  refine finds_signalParams.bind fun params hparams => finds_pure (.signalDecl hname ?_)
  cases params with
  | none => simp
  | some params => exact hparams params rfl

include hrules

/-- The value behind a sign, if there is one, is well formed. -/
theorem finds_initializer :
    Finds room initializer fun found => ∀ e ∈ found, Expr.Fits ["not"] .value e := by
  refine Finds.optional (Finds.after fun _ => Finds.after fun assigned => ?_)
  split
  · exact Finds.after fun _ => Finds.after fun _ => (finds_expr hrules).bind fun e he =>
      finds_pure (by simpa using he)
  · exact finds_pure (by simp)

/-- A type that is that of the value comes with a value. -/
theorem finds_binding : Finds room binding fun found =>
    found.1.IsWellFormed ∧ (∀ e ∈ found.2, Expr.Fits ["not"] .value e) ∧
      (found.1.isInferred = true → found.1.hint? = none ∧ found.2.isSome = true) := by
  refine Finds.after fun _ => Finds.after fun inferred => ?_
  split
  · refine Finds.after fun _ => (finds_expr hrules).bind fun e he => finds_pure ?_
    exact ⟨by simp [Typing.IsWellFormed, Typing.hint?], by simpa using he, fun _ => ⟨rfl, rfl⟩⟩
  · refine finds_annotation.bind fun hint hhint => (finds_initializer hrules).bind fun v hv => ?_
    exact finds_pure ⟨hhint, hv, fun h => Bool.noConfusion h⟩

/-- A variable has what its binding has, and accessors with names. -/
theorem finds_varDecl : Finds room varDecl (Decl.IsWellFormed ["not"]) := by
  refine Finds.after fun modifier => Finds.after fun _ => Finds.after fun _ => Finds.after fun _ => ?_
  refine finds_name.bind fun name hname => (finds_binding hrules).bind fun found hfound => ?_
  obtain ⟨htyping, hvalue, hinferred⟩ := hfound
  refine finds_setget.bind fun names hnames => finds_pure (.varDecl ?_)
  cases names with
  | none => exact ⟨hname, htyping, hvalue, by simp, by simp, hinferred⟩
  | some names =>
    obtain ⟨hsetter, hgetter⟩ := hnames names rfl
    exact ⟨hname, htyping, hvalue, hsetter, hgetter, hinferred⟩

/-- A constant has a value, without which it is complained about. -/
theorem finds_constDecl : Finds room constDecl (Decl.IsWellFormed ["not"]) := by
  refine Finds.after fun _ => Finds.after fun _ => ?_
  refine finds_name.bind fun name hname => (finds_binding hrules).bind fun found hfound => ?_
  obtain ⟨typing, value⟩ := found
  obtain ⟨htyping, hvalue, hinferred⟩ := hfound
  cases value with
  | none => exact finds_expected
  | some e =>
    exact finds_pure (.constDecl ⟨hname, htyping, hvalue e rfl, fun h => (hinferred h).1⟩)

theorem finds_enumVariant : Finds room enumVariant (EnumVariant.IsWellFormed ["not"]) := by
  refine Finds.after fun _ => finds_name.bind fun name hname => Finds.after fun _ =>
    Finds.after fun assigned => ?_
  split
  · exact Finds.after fun _ => Finds.after fun _ => (finds_expr hrules).bind fun e he =>
      finds_pure ⟨hname, by simpa using he⟩
  · exact finds_pure ⟨hname, by simp⟩

/-- The loop starts with a variant, so there is one at least. -/
theorem finds_variants : Finds room variants fun all =>
    all ≠ [] ∧ ∀ v ∈ all, EnumVariant.IsWellFormed ["not"] v := by
  have hvariant : Finds room (call Rule.enumVariant) (EnumVariant.IsWellFormed ["not"]) :=
    fun c => hrules .enumVariant c
  refine Finds.after fun _ => Finds.bracketed (hvariant.bind fun first hfirst => ?_)
  refine Finds.bind (P := fun found => found ≠ [] ∧ ∀ v ∈ found, EnumVariant.IsWellFormed ["not"] v)
    (Finds.iterate (by simpa using hfirst) fun found hfound => ?_) fun all hall => ?_
  · refine Finds.after fun _ => Finds.after fun comma => ?_
    split
    · refine Finds.after fun _ => Finds.after fun closed => ?_
      -- behind the last comma the list may be closed
      split
      · exact finds_pure hfound
      · exact hvariant.bind fun v hv => finds_pure
          ⟨List.cons_ne_nil _ _, List.forall_mem_cons.mpr ⟨hv, hfound.2⟩⟩
    · exact finds_pure hfound
  · refine Finds.after fun _ => Finds.after fun _ => finds_pure ⟨by simpa using hall.1, ?_⟩
    exact fun v hv => hall.2 v (List.mem_reverse.mp hv)

/-- An enumeration has a name, or none, and its variants. -/
theorem finds_enumDecl : Finds room enumDecl (Decl.IsWellFormed ["not"]) := by
  refine Finds.after fun _ => Finds.after fun _ => ?_
  refine Finds.bind (P := fun found => ∀ name ∈ found, Text.IsName name) (Finds.after fun opened => ?_)
    fun found hfound => Finds.after fun _ => ?_
  · split
    · exact finds_pure (by simp)
    · exact finds_name.bind fun name hname => finds_pure (by simpa using hname)
  · exact (finds_variants hrules).bind fun all hall => finds_pure (.enumDecl hfound hall.1 hall.2)

theorem finds_functionArg : Finds room functionArg (FunctionArg.IsWellFormed ["not"]) :=
  finds_name.bind fun _ hname => finds_argAnnotation.bind fun _ hhint =>
    (finds_initializer hrules).bind fun _ hvalue => finds_pure ⟨hname, hhint, hvalue⟩

theorem finds_indentedBlock (header : Nat) :
    Finds room (call (Rule.indentedBlock header)) (Block.IsWellFormed ["not"]) :=
  fun c => hrules (.indentedBlock header) c

/-- A function has well-formed parameters, and a block that a rule has found. -/
theorem finds_functionDecl (indent : Nat) :
    Finds room (functionDecl indent) (Decl.IsWellFormed ["not"]) := by
  have harg : Finds room (call Rule.functionArg) (FunctionArg.IsWellFormed ["not"]) :=
    fun c => hrules .functionArg c
  refine Finds.after fun modifier => Finds.after fun _ => Finds.after fun _ => Finds.after fun _ => ?_
  refine finds_name.bind fun name hname => Finds.after fun _ => ?_
  refine harg.parenthesized.bind fun args hargs => Finds.after fun _ => ?_
  refine (finds_typeAfter _).bind fun type htype => Finds.after fun _ => ?_
  refine (finds_indentedBlock hrules indent).bind fun body hbody => ?_
  exact finds_pure (.functionDecl ⟨hname, hargs, htype⟩ hbody)

theorem finds_classDecl (indent : Nat) :
    Finds room (classDecl indent) (Decl.IsWellFormed ["not"]) := by
  refine Finds.after fun _ => Finds.after fun _ => finds_name.bind fun name hname => ?_
  refine Finds.after fun _ => (finds_typeAfter _).bind fun base hbase => Finds.after fun _ => ?_
  exact (finds_indentedBlock hrules indent).bind fun body hbody =>
    finds_pure (.classDecl hname hbase hbody)

/-- A declaration is what one of its rules has found. -/
theorem finds_decl (indent : Nat) : Finds room (decl indent) (Decl.IsWellFormed ["not"]) := by
  refine finds_choice fun g hg => ?_
  simp only [List.mem_cons, List.not_mem_nil, or_false] at hg
  rcases hg with rfl | rfl | rfl | rfl | rfl | rfl | rfl | rfl <;> exact fun c => hrules _ c

end Declaration

/-! ### Statements -/

namespace Statement

open Expression (finds_expr)

include hrules

theorem finds_indentedBlock (header : Nat) :
    Finds room (call (Rule.indentedBlock header)) (Block.IsWellFormed ["not"]) :=
  Declaration.finds_indentedBlock hrules header

/-- A branch has a test and a block. -/
theorem finds_condition (indent : Nat) :
    Finds room (condition indent) (Condition.IsWellFormed ["not"]) :=
  Finds.after fun _ => (finds_expr hrules).bind fun _ he => Finds.after fun _ => Finds.after fun _ =>
    (finds_indentedBlock hrules indent).bind fun _ hbody => finds_pure (.mk he hbody)

theorem finds_branch (indent : Nat) :
    Finds room (call (Rule.condition indent)) (Condition.IsWellFormed ["not"]) :=
  fun c => hrules (.condition indent) c

theorem finds_elifBranch (indent : Nat) : Finds room (elifBranch indent) fun found =>
    ∀ branch ∈ found, Condition.IsWellFormed ["not"] branch := by
  have hbranch : Finds room (call (Rule.elifBranch indent)) (Condition.IsWellFormed ["not"]) :=
    fun c => hrules (.elifBranch indent) c
  refine Finds.after fun word => ?_
  split
  · exact hbranch.bind fun branch h => finds_pure (by simpa using h)
  · exact finds_pure (by simp)

theorem finds_elseBranch (indent : Nat) : Finds room (elseBranch indent) fun found =>
    ∀ body ∈ found, Block.IsWellFormed ["not"] body := by
  have hbody : Finds room (call (Rule.elseBranch indent)) (Block.IsWellFormed ["not"]) :=
    fun c => hrules (.elseBranch indent) c
  refine Finds.after fun word => ?_
  split
  · exact hbody.bind fun body h => finds_pure (by simpa using h)
  · exact finds_pure (by simp)

/-- The branches of a choice are gathered backwards. -/
theorem finds_ifStmt (indent : Nat) : Finds room (ifStmt indent) (Stmt.IsWellFormed ["not"]) := by
  refine Finds.after fun _ => (finds_branch hrules indent).bind fun branch hbranch => ?_
  refine Finds.bind (P := fun elifs => ∀ c ∈ elifs, Condition.IsWellFormed ["not"] c)
    (Finds.iterate (by simp) fun found hfound => ?_) fun elifs helifs => ?_
  · refine (finds_elifBranch hrules indent).bind fun next hnext => ?_
    cases next with
    | none => exact finds_pure hfound
    | some branch => exact finds_pure (List.forall_mem_cons.mpr ⟨hnext branch rfl, hfound⟩)
  · refine (finds_elseBranch hrules indent).bind fun otherwise hotherwise => finds_pure ?_
    exact .ifStmt hbranch (fun c hc => helifs c (List.mem_reverse.mp hc)) hotherwise

/-- A match without a case is complained about. -/
theorem finds_matchStmt (indent : Nat) :
    Finds room (matchStmt indent) (Stmt.IsWellFormed ["not"]) := by
  have hcase : ∀ width, Finds room (call (Rule.matchCase width)) (Condition.IsWellFormed ["not"]) :=
    fun width c => hrules (.matchCase width) c
  refine Finds.after fun _ => Finds.after fun _ => (finds_expr hrules).bind fun subject hsubject => ?_
  refine Finds.after fun _ => Finds.after fun _ => Finds.after fun width => ?_
  refine Finds.bind (P := fun cases => ∀ c ∈ cases, Condition.IsWellFormed ["not"] c)
    (Finds.iterate (by simp) fun found hfound => Finds.after fun more => ?_) fun cases hcases => ?_
  · split
    · exact (hcase width).bind fun branch hbranch =>
        finds_pure (List.forall_mem_cons.mpr ⟨hbranch, hfound⟩)
    · exact finds_pure hfound
  · -- there is a case, or a complaint
    split
    · exact finds_expected
    · next hne =>
      refine finds_pure (.matchStmt hsubject ?_ fun c hc => hcases c (List.mem_reverse.mp hc))
      simpa using hne

/-- What is assigned to has been read as the target of an assignment. -/
theorem finds_assignStmt : Finds room assignStmt (Stmt.IsWellFormed ["not"]) := by
  have htarget : Finds room Expression.postfixed (Expr.Fits ["not"] .target) :=
    fun c => (Expression.yields_postfixed hrules).mono fun _ _ he => he.1
  refine htarget.bind fun target ht => Finds.after fun _ => Finds.after fun found => ?_
  cases found with
  | none => exact finds_expected
  | some op => exact Finds.after fun _ => (finds_expr hrules).bind fun _ he =>
      finds_pure (.assignStmt ht he)

theorem finds_returnStmt : Finds room returnStmt (Stmt.IsWellFormed ["not"]) := by
  refine Finds.after fun _ => Finds.after fun _ => Finds.after fun ended => ?_
  split
  · exact finds_pure (.returnStmt (by simp))
  · exact (finds_expr hrules).bind fun e he => finds_pure (.returnStmt (by simpa using he))

/-- A statement is what one of its rules has found. -/
theorem finds_stmt (indent : Nat) : Finds room (stmt indent) (Stmt.IsWellFormed ["not"]) := by
  refine finds_choice fun g hg => ?_
  simp only [List.mem_cons, List.not_mem_nil, or_false] at hg
  rcases hg with rfl | rfl | rfl | rfl | rfl | rfl | rfl <;> exact fun c => hrules _ c

end Statement

/-! ### Lines and blocks -/

namespace Script

include hrules

/-- An item is a declaration, a statement or an expression. -/
theorem finds_lineItem (indent : Nat) :
    Finds room (lineItem indent) (Line.IsWellFormed ["not"]) := by
  have hdecl : Finds room (call (Rule.decl indent)) (Decl.IsWellFormed ["not"]) :=
    fun c => hrules (.decl indent) c
  have hstmt : Finds room (call (Rule.stmt indent)) (Stmt.IsWellFormed ["not"]) :=
    fun c => hrules (.stmt indent) c
  refine Finds.after fun start => finds_choice fun g hg => ?_
  simp only [List.mem_cons, List.not_mem_nil, or_false] at hg
  rcases hg with rfl | rfl | rfl
  · exact hdecl.bind fun _ h => Finds.after fun _ => finds_pure (.decl h)
  · exact hstmt.bind fun _ h => Finds.after fun _ => finds_pure (.stmt h)
  · exact (Expression.finds_expr hrules).bind fun _ h => Finds.after fun _ => finds_pure (.expr h)

/-- A line has one item at least, and a further one behind each semicolon. -/
theorem finds_line (indent : Nat) : Finds room (line indent) (Block.IsWellFormed ["not"]) := by
  refine (finds_lineItem hrules indent).bind fun first hfirst => ?_
  refine Finds.bind (P := Block.IsWellFormed ["not"]) (Finds.iterate (I := Block.IsWellFormed ["not"])
    (fun l hl => ?_) fun items hitems => ?_) fun items hitems => ?_
  · rw [List.mem_singleton.mp hl]
    exact hfirst
  · refine Finds.after fun _ => Finds.after fun _ => Finds.after fun ended => ?_
    -- a comment or the end of the line ends the items
    split
    · exact finds_pure hitems
    · refine Finds.after fun semicolon => ?_
      split
      · refine Finds.after fun _ => Finds.after fun ended => ?_
        split
        · exact finds_pure hitems
        · exact (finds_lineItem hrules indent).bind fun item hitem =>
            finds_pure (List.forall_mem_cons.mpr ⟨hitem, hitems⟩)
      · exact finds_expected
  · exact finds_pure fun l hl => hitems l (List.mem_reverse.mp hl)

omit hrules in
/-- The text of a comment has been trimmed, and ends with its line. -/
theorem finds_commentLine : Finds room commentLine (Line.IsWellFormed ["not"]) := by
  refine Finds.after fun _ => Finds.after fun start => ?_
  refine Finds.bind (P := fun text => ∀ t ∈ text, Text.IsCommentText t)
    (finds_read fun t found n hread text hmem => ?_) fun text htext => Finds.after fun stop => ?_
  · rw [Option.mem_def.mp hmem] at hread
    exact Reader.isCommentText_of_comment hread
  · cases text with
    | none => exact finds_pure (.comment ⟨rfl, rfl, by simp⟩)
    | some text => exact finds_pure (.comment (htext text rfl))

/-- What a turn of a block adds is well formed, and the last turn adds nothing. -/
theorem finds_blockLine (level : Nat) (required : Bool) :
    Finds room (blockLine level required) fun found =>
      ∀ lines ∈ found, Block.IsWellFormed ["not"] lines := by
  have hline : Finds room (call (Rule.line level)) (Block.IsWellFormed ["not"]) :=
    fun c => hrules (.line level) c
  refine Finds.optional (Finds.after fun _ => Finds.after fun kind => ?_)
  -- the kind of the line decides what the turn adds
  cases kind with
  | ended => exact finds_pure (by simp)
  | comment => exact finds_commentLine.bind fun found hfound =>
      finds_pure (by simpa [Block.IsWellFormed] using hfound)
  | misplaced => exact Finds.after fun _ => finds_pure (by simp)
  | code =>
    refine Finds.after fun _ => ?_
    split
    · exact hline.bind fun lines hlines => finds_pure (by simpa using hlines)
    · exact fun c => Yields.attempt ((hline c).mono fun lines _ hlines => by simpa using hlines)
        (by simp)

/-- The lines of a block are gathered backwards. -/
theorem finds_block (level : Nat) (required : Bool) :
    Finds room (block level required) (Block.IsWellFormed ["not"]) := by
  refine Finds.bind (P := Block.IsWellFormed ["not"]) (Finds.iterate (I := Block.IsWellFormed ["not"])
    (fun l hl => absurd hl (by simp)) fun lines hlines => ?_) fun lines hlines => ?_
  · refine (finds_blockLine hrules level _).bind fun found hfound => ?_
    cases found with
    | none => exact finds_pure hlines
    | some more =>
      refine finds_pure fun l hl => ?_
      rcases List.mem_append.mp hl with hl | hl
      · exact hfound more rfl l (List.mem_reverse.mp hl)
      · exact hlines l hl
  · exact finds_pure fun l hl => hlines l (List.mem_reverse.mp hl)

theorem finds_indentedBlock (header : Nat) :
    Finds room (indentedBlock header) (Block.IsWellFormed ["not"]) :=
  Finds.after fun level => fun c => hrules (.block level true) c

/-- The lines of a file are those of its block, or it is complained about. -/
theorem finds_file : Finds room file (Block.IsWellFormed ["not"]) := by
  have hblock : Finds room (call (Rule.block 0 false)) (Block.IsWellFormed ["not"]) :=
    fun c => hrules (.block 0 false) c
  refine hblock.bind fun lines hlines => Finds.after fun ended => ?_
  split
  · exact finds_pure hlines
  · -- what is left over is complained about, so that nothing is found
    refine fun c => Yields.blame (Finds.after (fun _ => ?_) c)
    exact finds_read fun t lines n h => absurd h (by simp [trailing])

end Script

/-! ### Every rule -/

include hrules

/-- The bodies of the rules find what is said of the rules, when the rules do that they call. -/
theorem Rule.yields_body {α : Type} (rule : Rule α) (c : Cursor) :
    Yields room rule.body c fun v _ => rule.Sound c v := by
  cases rule with
  | file => exact Script.finds_file hrules c
  | block level required => exact Script.finds_block hrules level required c
  | indentedBlock header => exact Script.finds_indentedBlock hrules header c
  | line indent => exact Script.finds_line hrules indent c
  | decl indent => exact Declaration.finds_decl hrules indent c
  | varDecl => exact Declaration.finds_varDecl hrules c
  | constDecl => exact Declaration.finds_constDecl hrules c
  | extendsDecl => exact Declaration.finds_extendsDecl c
  | classNameDecl => exact Declaration.finds_classNameDecl c
  | signalDecl => exact Declaration.finds_signalDecl c
  | enumDecl => exact Declaration.finds_enumDecl hrules c
  | enumVariant => exact Declaration.finds_enumVariant hrules c
  | functionDecl indent => exact Declaration.finds_functionDecl hrules indent c
  | functionArg => exact Declaration.finds_functionArg hrules c
  | classDecl indent => exact Declaration.finds_classDecl hrules indent c
  | stmt indent => exact Statement.finds_stmt hrules indent c
  | ifStmt indent => exact Statement.finds_ifStmt hrules indent c
  | elifBranch indent =>
    exact Finds.after (fun _ => Statement.finds_branch hrules indent) c
  | elseBranch indent =>
    exact Finds.after (fun _ => Finds.after fun _ => Finds.after fun _ =>
      Statement.finds_indentedBlock hrules indent) c
  | whileStmt indent =>
    exact Finds.after (fun _ => (Statement.finds_branch hrules indent).bind fun _ h =>
      finds_pure (.whileStmt h)) c
  | forStmt indent =>
    exact Finds.after (fun _ => (Statement.finds_branch hrules indent).bind fun _ h =>
      finds_pure (.forStmt h)) c
  | matchStmt indent => exact Statement.finds_matchStmt hrules indent c
  | matchCase indent => exact Statement.finds_branch hrules indent c
  | assignStmt => exact Statement.finds_assignStmt hrules c
  | returnStmt => exact Statement.finds_returnStmt hrules c
  | passStmt => exact Finds.after (fun _ => finds_pure .passStmt) c
  | condition indent => exact Statement.finds_condition hrules indent c
  | expr => exact Expression.finds_logic hrules c
  | unary op =>
    exact (Expression.finds_unary hrules).bind (fun _ h => finds_pure (.unary h)) c
  | parens => exact Expression.finds_enclosed hrules c
  | index => exact Expression.finds_enclosed hrules c
  | member found =>
    -- a chain finds what it should only behind a base that fits
    intro scope journal e c' journal' hrun hfound
    exact Expression.finds_chain hrules (by decide) hfound c scope journal e c' journal' hrun
  | value => exact Expression.yields_value hrules
  | int => exact Expression.finds_int c
  | string => exact Expression.finds_string c
  | nodePath => exact Expression.finds_nodePath c
  | array => exact Expression.finds_array hrules c
  | object => exact Expression.finds_object hrules c
  | pair => exact Expression.finds_pair hrules c
  | functionCall name =>
    exact (Expression.finds_callArguments hrules).bind (fun es hes => finds_pure ⟨es, rfl, hes⟩) c

end Rules

/-- Every rule finds what is said of it, with any room. -/
theorem Rule.areSound (room : Nat) : Rule.AreSound room :=
  yields_call_of_bodies (S := fun rule c v _ => Rule.Sound rule c v)
    (fun _ hrules _ rule c => Rule.yields_body hrules rule c) room

/--
Every block that a script is read as is well formed at every depth: whatever the text is, and
whatever the depth limit.
-/
theorem Script.isWellFormed_of_parse {source : Text} {depth : Option Int} {block : Block}
    (h : parse source depth = .ok block) : Block.IsWellFormed ["not"] block := by
  unfold parse run start at h
  split at h
  · next found c journal hrun =>
    obtain rfl := Except.ok.inj h
    exact Rule.areSound _ .file _ _ _ _ _ _ hrun
  · exact absurd h (by simp)

/-- The word `not` is read as the target of an assignment. -/
theorem Script.isWellFormed_of_parse_not :
    ∃ span, parse "not = 1" none = .ok [.stmt (.assignStmt (.ident "not") .set (.int ⟨1, "1"⟩)) span] ∧
      Block.IsWellFormed ["not"]
        [.stmt (.assignStmt (.ident "not") .set (.int ⟨1, "1"⟩)) span] := by
  have hparse : parse "not = 1" none = .ok
      [.stmt (.assignStmt (.ident "not") .set (.int ⟨1, "1"⟩)) ⟨⟨1, 1, 0⟩, ⟨1, 8, 7⟩⟩] := by rfl
  exact ⟨_, hparse, isWellFormed_of_parse hparse⟩

end GDScript
