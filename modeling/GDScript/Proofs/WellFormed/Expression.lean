import GDScript.Grammar.Language
import GDScript.Proofs.Expression.Level
import GDScript.Proofs.Expression.Value
import GDScript.Proofs.WellFormed.Tree
import GDScript.Proofs.Yielding

/-!
# Expressions that are read are well formed

What every rule finds (`Rule.Sound`), and that the bodies of the rules for expressions find it when
the rules do that they call. A value is the one place where the word `not` can slip in as a name:
the operator is looked for before an operand only, so a value is sound as the target of an
assignment, and as an operand only where the word is not ahead.
-/

namespace GDScript

open Grammar

/-- What is found at a value, from the cursor on. -/
def Expr.FitsFrom (c : Cursor) (e : Expr) : Prop :=
  e.Fits ["not"] .target ∧ (Text.startsWord "not" c.ahead = false → e.Fits ["not"] .value)

/-- What a rule finds. -/
def Rule.Sound : {α : Type} → Rule α → Cursor → α → Prop
  | _, .file, _, lines | _, .block _ _, _, lines | _, .indentedBlock _, _, lines
  | _, .elseBranch _, _, lines | _, .line _, _, lines => Block.IsWellFormed ["not"] lines
  | _, .decl _, _, d | _, .varDecl, _, d | _, .constDecl, _, d | _, .extendsDecl, _, d
  | _, .classNameDecl, _, d | _, .signalDecl, _, d | _, .enumDecl, _, d | _, .functionDecl _, _, d
  | _, .classDecl _, _, d => d.IsWellFormed ["not"]
  | _, .enumVariant, _, v => v.IsWellFormed ["not"]
  | _, .functionArg, _, a => a.IsWellFormed ["not"]
  | _, .stmt _, _, s | _, .ifStmt _, _, s | _, .whileStmt _, _, s | _, .forStmt _, _, s
  | _, .matchStmt _, _, s | _, .assignStmt, _, s | _, .returnStmt, _, s
  | _, .passStmt, _, s => s.IsWellFormed ["not"]
  | _, .elifBranch _, _, branch | _, .matchCase _, _, branch
  | _, .condition _, _, branch => branch.IsWellFormed ["not"]
  | _, .expr, _, e | _, .unary _, _, e | _, .parens, _, e | _, .index, _, e | _, .string, _, e
  | _, .nodePath, _, e | _, .array, _, e | _, .object, _, e => e.Fits ["not"] .value
  -- whether a value is a name depends on what was ahead of it
  | _, .value, c, e => e.FitsFrom c
  -- a member is called with the link in front of it
  | _, .member found, _, e => found.Fits ["not"] .link → e.Fits ["not"] .member
  | _, .int, _, found => ∀ literal ∈ found, literal.IsNumeral ∧ literal.value ≤ Reader.greatestInt
  | _, .pair, _, p => p.1.Fits ["not"] .value ∧ p.2.Fits ["not"] .value
  | _, .functionCall name, _, e => ∃ es, e = .call name es ∧ ∀ a ∈ es, Expr.Fits ["not"] .value a

/-- With this room the rules find what is said of them. -/
def Rule.AreSound (room : Nat) : Prop :=
  ∀ {α : Type} (rule : Rule α) (c : Cursor), Yields room (call rule) c fun v _ => rule.Sound c v

/-- A value is a target too. -/
theorem Expr.Fits.fitsFrom {c : Cursor} {e : Expr} (h : e.Fits ["not"] .value) : e.FitsFrom c :=
  ⟨.target h, fun _ => h⟩

/-- No level has an operator for subscripts or members. -/
theorem Spelling.op_ne_of_mem_binaryTable : ∀ level ≤ 2, ∀ row ∈ binaryTable level,
    row.op ≠ .attr ∧ row.op ≠ .index := by
  decide

namespace Expression

variable {room : Nat} {c : Cursor}

/-- Where no constant is ahead, the name that is ahead is none of the constants. -/
theorem isValueName_of_constant?_eq_none {words : List Text} {t name : Text}
    (hname : Text.identifier? t = some name) (hconstant : constant? t = none)
    (hwords : ∀ w ∈ words, w.IsName ∧ Text.startsWord w t = false) : name.IsValueName words := by
  -- a constant with this name, or one of the words, would have been ahead itself
  refine ⟨(Text.isName_of_identifier? hname).1, fun constant hmem heq => ?_, fun hmem => ?_⟩
  · have hstarts : Text.startsWord constant.1 t = true := by
      rw [Text.startsWord_iff (Expr.isName_of_mem_constants constant hmem), hname, heq]
    exact absurd hstarts (List.find?_eq_none.mp hconstant constant hmem)
  · obtain ⟨hw, hnot⟩ := hwords name hmem
    rw [(Text.startsWord_iff hw).mpr hname] at hnot
    exact Bool.noConfusion hnot

section Rules

variable (hrules : Rule.AreSound room)
include hrules

/-- An expression is fit for a value. -/
theorem finds_expr : Finds room expr (Expr.Fits ["not"] .value) :=
  fun c => hrules .expr c

/-- Each argument is fit for a value. -/
theorem finds_callArguments :
    Finds room callArguments fun es => ∀ e ∈ es, Expr.Fits ["not"] .value e :=
  (finds_expr hrules).parenthesized

/-! ### Names and calls -/

/-- A name that is ahead, or a call of it. -/
theorem yields_identOrCall : Yields room identOrCall c fun e _ =>
    ∃ name, Text.identifier? c.ahead = some name ∧ (e = .ident name ∨
      ∃ es, e = .call name es ∧ ∀ a ∈ es, Expr.Fits ["not"] .value a) := by
  -- the name is what the reader finds at the cursor the rule starts from
  have hname : Yields room Expression.name c fun name _ =>
      Text.identifier? c.ahead = some name := by
    refine Yields.bind (P := fun found _ => Text.identifier? c.ahead = found)
      (yields_read fun v n hread => ?_) fun found c' hfound => ?_
    · unfold Reader.identifier Reader.lexeme at hread
      split at hread
      · next name hname =>
        obtain ⟨rfl, -⟩ := Reading.took.inj hread
        exact hname
      · next hname =>
        obtain ⟨rfl, -⟩ := Reading.took.inj hread
        exact hname
    · cases found with
      | none => exact yields_expected
      | some name => exact yields_pure hfound
  refine hname.bind fun name c' hname => ?_
  refine yields_look_bind ?_
  split
  · exact (hrules (.functionCall name) c').mono fun e _ he => ⟨name, hname, .inr he⟩
  · exact yields_pure ⟨name, hname, .inl rfl⟩

/-- What a name or a call is fit for, by its name. -/
theorem yields_identOrCall_fits {place : Place} (hplace : place ≠ .member)
    (hallows : ∀ name, Text.identifier? c.ahead = some name → place.Allows ["not"] name) :
    Yields room identOrCall c fun e _ => e.Fits ["not"] place := by
  refine (yields_identOrCall hrules).mono fun e _ he => ?_
  obtain ⟨name, hname, rfl | ⟨es, rfl, hes⟩⟩ := he
  · exact .ident hplace (hallows name hname)
  · exact .call hplace (hallows name hname) hes

/-! ### Chains -/

/-- A chain is fit for the place that its base is fit for; links make a member. -/
theorem finds_chain {place : Place} {base : Expr} (hplace : place ≠ .member)
    (hbase : base.Fits ["not"] place) :
    Finds room (chain base) fun e => e.Fits ["not"] (if place = .link then .member else place) := by
  have hsubscripts : Finds room (subscripts base) (Expr.Fits ["not"] place) := by
    refine Finds.iterate hbase fun e he => Finds.after fun opened => ?_
    split
    · have hindex : Finds room (call Rule.index) (Expr.Fits ["not"] .value) := fun c => hrules .index c
      exact hindex.bind fun i hi => finds_pure (.index hplace he hi)
    · exact finds_pure he
  refine hsubscripts.bind fun subscripted hsubscripted => Finds.after fun point => ?_
  split
  · refine Finds.bind (P := Expr.Fits ["not"] .link) (fun c => ?_) fun found hfound => ?_
    · exact yields_identOrCall_fits hrules (by decide) fun name hname =>
        (Text.isName_of_identifier? hname).1
    · have hmember : Finds room (call (Rule.member found)) (Expr.Fits ["not"] .member) :=
        fun c => (hrules (.member found) c).mono fun e _ he => he hfound
      refine hmember.bind fun m hm => finds_pure ?_
      -- behind a link the rest of the chain makes a member; elsewhere the chain stands for a value
      cases place with
      | value | target => exact .attr (by decide) hsubscripted hm
      | link => exact .attr (by decide) hsubscripted hm
      | member => exact absurd rfl hplace
  · cases place with
    | value | target => exact finds_pure hsubscripted
    | link => exact finds_pure (.link hsubscripted)
    | member => exact absurd rfl hplace

/-! ### Values -/

/-- A number that is found is spelled as one, and no integer exceeds the greatest. -/
theorem finds_number : Finds room number (Expr.Fits ["not"] .value) := by
  refine Finds.bind (P := fun found => ∀ literal ∈ found, literal.IsNumeral)
    (finds_read fun t found n hread literal hliteral => ?_) fun found hfound => ?_
  · rw [Option.mem_def.mp hliteral] at hread
    unfold Reader.float at hread
    split at hread
    · exact absurd hread (by simp)
    · next found hfound =>
      obtain ⟨heq, -⟩ := Reading.took.inj hread
      obtain rfl := Option.some.inj heq
      exact (Text.isNumeral_of_floatLiteral? hfound).1
  · -- a number with a fraction is looked for first, then an integer
    cases found with
    | some literal => exact finds_pure (.float (hfound literal rfl))
    | none =>
      have hint : Finds room (call Rule.int) fun found => ∀ literal ∈ found,
          literal.IsNumeral ∧ literal.value ≤ Reader.greatestInt := fun c => hrules .int c
      refine hint.bind fun found hfound => ?_
      cases found with
      | some literal =>
        obtain ⟨hnumeral, hmax⟩ := hfound literal rfl
        exact finds_pure (.int hnumeral hmax)
      | none => exact finds_expected

/-- A name at the place of a value is no constant; it may be the word `not`, if that is ahead. -/
theorem yields_named : Yields room (do
    match ← read constant with
    | some found => return found
    | none => identOrCall : Grammar Rule Expr) c fun e _ => e.FitsFrom c := by
  refine Yields.bind (P := fun found c' => (∀ e, found = some e → e.Fits ["not"] .value) ∧
    (found = none → constant? c.ahead = none ∧ c' = c)) (yields_read fun found n hread => ?_)
    fun found c' hfound => ?_
  · unfold constant at hread
    split at hread
    · next word value hconstant =>
      obtain ⟨rfl, rfl⟩ := Reading.took.inj hread
      have hfind : Expr.constants.find? (fun c' => Text.startsWord c'.1 c.ahead) = some (word, value) :=
        hconstant
      have hmem := List.mem_of_find?_eq_some hfind
      refine ⟨fun e he => ?_, fun h => absurd h (by simp)⟩
      obtain rfl := Option.some.inj he
      exact .constant hmem
    · next hconstant =>
      obtain ⟨rfl, rfl⟩ := Reading.took.inj hread
      exact ⟨fun e he => absurd he (by simp), fun _ => ⟨hconstant, rfl⟩⟩
  · cases found with
    | some e => exact yields_pure (hfound.1 e rfl).fitsFrom
    | none =>
      obtain ⟨hconstant, rfl⟩ := hfound.2 rfl
      refine (yields_identOrCall_fits hrules (show Place.target ≠ .member by decide) fun name hname =>
        isValueName_of_constant?_eq_none hname hconstant (by simp)).and ?_
      -- at the place of a target every name is allowed; for a value `not` must not be ahead
      by_cases hnot : Text.startsWord "not" c'.ahead = false
      · refine (yields_identOrCall_fits hrules (show Place.value ≠ .member by decide) fun name hname =>
          isValueName_of_constant?_eq_none hname hconstant ?_).mono fun e _ he _ => he
        simpa using ⟨by decide, hnot⟩
      · exact fun _ _ _ _ _ _ h => absurd h hnot

/-- Each kind of value is fit, and a name is fit unless it is the word `not`. -/
theorem yields_value : Yields room value c fun e _ => e.FitsFrom c := by
  have hvalue : ∀ rule : Rule Expr, (∀ c e, rule.Sound c e = e.Fits ["not"] .value) →
      ∀ c, Yields room (call rule) c fun e _ => e.FitsFrom c := fun rule hrule c =>
    (hrules rule c).mono fun e _ he => ((hrule c e).mp he).fitsFrom
  refine yields_look_bind ?_
  cases c.ahead.head? with
  | none => exact yields_expected
  | some u =>
    change Yields room (valueFrom u) c _
    -- the first unit tells the kinds of values apart, in the order in which they are tried
    unfold valueFrom
    split_ifs
    · exact hvalue .array (fun _ _ => rfl) c
    · exact hvalue .object (fun _ _ => rfl) c
    · exact hvalue .nodePath (fun _ _ => rfl) c
    · exact hvalue .string (fun _ _ => rfl) c
    · exact (finds_number hrules c).mono fun e _ he => he.fitsFrom
    · exact yields_named hrules
    · exact yields_expected

/-- What stands in parentheses is fit for a value in any case. -/
theorem yields_primary : Yields room primary c fun e _ => e.FitsFrom c := by
  refine yields_look_bind ?_
  split
  · exact (hrules .parens c).mono fun e _ he => Expr.Fits.fitsFrom he
  · exact hrules .value c

/-! ### Operators -/

/-- A chain is as fit as the value in front of it. -/
theorem yields_postfixed : Yields room postfixed c fun e _ => e.FitsFrom c := by
  refine (yields_primary hrules).bind fun base c' hbase => ?_
  -- a chain is as fit as its base: always for a target, for a value where `not` is not ahead
  refine (finds_chain hrules (show Place.target ≠ .member by decide) hbase.1 c').and ?_
  by_cases hnot : Text.startsWord "not" c.ahead = false
  · exact (finds_chain hrules (show Place.value ≠ .member by decide) (hbase.2 hnot) c').mono
      fun e _ he _ => he
  · exact fun _ _ _ _ _ _ h => absurd h hnot

/-- An operand is read where no operator is ahead, so the word `not` is not its name. -/
theorem finds_unary : Finds room unary (Expr.Fits ["not"] .value) := by
  intro c
  refine Yields.bind (P := fun found c' => found = none →
    c' = c ∧ Spelling.unary.find? (·.isAt c.ahead) = none) (yields_read fun found n hread => ?_)
    fun found c' hfound => ?_
  · rintro rfl
    unfold Reader.operator at hread
    split at hread
    · exact absurd hread (by simp)
    · next hnone =>
      obtain ⟨-, rfl⟩ := Reading.took.inj hread
      exact ⟨rfl, hnone⟩
  · cases found with
    | none =>
      obtain ⟨rfl, hnone⟩ := hfound rfl
      -- no row of the table is ahead, and `not` is one of its rows
      have hnot : Text.startsWord "not" c'.ahead = false := by
        have hrow := List.find?_eq_none.mp hnone (Spelling.word "not" .not) (by decide)
        simpa [Spelling.isAt, Spelling.word, Text.startsWord] using hrow
      exact (yields_postfixed hrules).mono fun e _ he => he.2 hnot
    | some op =>
      exact (finds_any gap c').bind fun _ c'' _ => hrules (.unary op) c''

omit hrules in
/-- The levels join operands by operators of their table. -/
theorem finds_binary {level : Nat} {operand : Grammar Rule Expr} (hlevel : level ≤ 2)
    (h : Finds room operand (Expr.Fits ["not"] .value)) :
    Finds room (binary (Spelling.binaryTable level) operand) (Expr.Fits ["not"] .value) := by
  -- the tables of the three levels hold neither the dot nor the index
  have hop : Finds room (Grammar.optional do
      gap
      (read (Reader.operator (Spelling.binaryTable level)) : Grammar Rule (Option BinaryOp)))
      fun found => ∀ op ∈ found, op ≠ .attr ∧ op ≠ .index := by
    refine Finds.optional (Finds.after fun _ => finds_read fun t found n hread op hmem => ?_)
    rw [Option.mem_def.mp hmem] at hread
    unfold Reader.operator at hread
    split at hread
    · next row hrow =>
      obtain ⟨heq, -⟩ := Reading.took.inj hread
      obtain rfl := Option.some.inj heq
      exact Spelling.op_ne_of_mem_binaryTable level hlevel row (List.mem_of_find?_eq_some hrow)
    · exact absurd hread (by simp)
  refine h.bind fun first hfirst => Finds.iterate hfirst fun left hleft => ?_
  refine hop.bind fun found hfound => ?_
  cases found with
  | none => exact finds_pure hleft
  | some op =>
    obtain ⟨hattr, hindex⟩ := hfound op rfl
    exact Finds.after fun _ => h.bind fun right hright =>
      finds_pure (.binary hattr hindex hleft hright)

/-- The loosest level, with the other ones as its operands. -/
theorem finds_logic : Finds room logic (Expr.Fits ["not"] .value) :=
  finds_binary (show 0 ≤ 2 by omega) (finds_binary (show 1 ≤ 2 by omega)
    (finds_binary (show 2 ≤ 2 by omega) (finds_unary hrules)))

/-! ### Bodies -/

/-- Brackets enclose a value. -/
theorem finds_enclosed {opener closer : Text} :
    Finds room (enclosed opener closer) (Expr.Fits ["not"] .value) :=
  Finds.after fun _ => Finds.bracketed (Finds.after fun _ => (finds_expr hrules).bind fun _ he =>
    Finds.after fun _ => Finds.after fun _ => finds_pure he)

/-- A key and its value are values. -/
theorem finds_pair : Finds room pair fun p =>
    p.1.Fits ["not"] .value ∧ p.2.Fits ["not"] .value :=
  (finds_expr hrules).bind fun _ hk => Finds.after fun _ => Finds.after fun _ =>
    Finds.after fun _ => (finds_expr hrules).bind fun _ hv => finds_pure ⟨hk, hv⟩

/-- The elements are values. -/
theorem finds_array : Finds room array (Expr.Fits ["not"] .value) :=
  Finds.after fun _ => (finds_expr hrules).itemsUntil.bind fun _ hes => finds_pure (.array hes)

/-- The keys and the values are values. -/
theorem finds_object : Finds room object (Expr.Fits ["not"] .value) := by
  have hpair : Finds room (call Rule.pair) fun p =>
      p.1.Fits ["not"] .value ∧ p.2.Fits ["not"] .value := fun c => hrules .pair c
  refine Finds.after fun _ => hpair.itemsUntil.bind fun ps hps => finds_pure ?_
  exact .object (fun p hp => (hps p hp).1) fun p hp => (hps p hp).2

end Rules

/-- A string that is read is spelled as one. -/
theorem finds_string : Finds room Expression.string (Expr.Fits ["not"] .value) :=
  (finds_require (P := StringLiteral.IsValid) fun _ _ _ h => (Reader.isValid_of_string h).1).bind
    fun _ h => finds_pure (.string h)

/-- A path that is read is spelled as one. -/
theorem finds_nodePath : Finds room Expression.nodePath (Expr.Fits ["not"] .value) :=
  (finds_require (P := Text.IsNodePath) fun _ _ _ h => Reader.isNodePath_of_nodePath h).bind
    fun _ h => finds_pure (.nodePath h)

/-- An integer that is read is spelled as one and not too great. -/
theorem finds_int : Finds room (read Reader.int : Grammar Rule (Option IntLiteral)) fun found =>
    ∀ literal ∈ found, literal.IsNumeral ∧ literal.value ≤ Reader.greatestInt := by
  refine finds_read fun t found n hread literal hmem => ?_
  rw [Option.mem_def.mp hmem] at hread
  unfold Reader.int at hread
  split at hread
  · exact absurd hread (by simp)
  · next literal' hliteral =>
    split at hread
    · next hmax =>
      obtain ⟨heq, -⟩ := Reading.took.inj hread
      obtain rfl := Option.some.inj heq
      exact ⟨(Text.isNumeral_of_intLiteral? hliteral).1, hmax⟩
    · exact absurd hread (by simp)

end Expression

end GDScript
