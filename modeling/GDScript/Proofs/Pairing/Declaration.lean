import GDScript.Proofs.Pairing.Expression

/-!
# Declarations in two texts

What the rules about declarations and about simple statements read goes alike in both texts of a
pairing, if the rules do that they call. With the rules about expressions this gives that all rules
go alike that read no block (`TokenPairing.plainCarry`). Where a block comes with a header, only the
header is read alike, and it is left open how what follows goes together.
-/

namespace GDScript

open Grammar

namespace Text.Alike

variable {t t' : Text}

/-- The colon of a type lies in the token. -/
theorem startsAnnotation (h : SameToken t t') :
    Declaration.startsAnnotation t' = Declaration.startsAnnotation t := by
  rw [Declaration.startsAnnotation, Declaration.startsAnnotation, h.isPrefixOf (by decide),
    h.isPrefixOf (by decide)]

end Text.Alike

/-- The cases, behind the colon in front of them. -/
def Statement.matchBody (indent : Nat) (subject : Expr) : Grammar Rule Stmt := do
  let width ← blockOpening indent
  let cases ← iterate (caseTurn width) []
  if cases.isEmpty then expected "match case" else return .matchStmt subject cases.reverse

/-! ### Where names end -/

/-- A name ends with a unit of names. -/
theorem Text.IsName.isIdentifierChar_getLast {s : Text} (h : s.IsName) {u : CodeUnit}
    (hu : s.getLast? = some u) : u.isIdentifierChar = true :=
  h.2 u (List.mem_of_getLast? hu)

/-- A chain ends with its last name. -/
theorem Text.IsChain.isIdentifierChar_getLast {separator : CodeUnit} {s : Text}
    (h : s.IsChain separator) {u : CodeUnit} (hu : s.getLast? = some u) :
    u.isIdentifierChar = true := by
  induction h with
  | name hs => exact hs.isIdentifierChar_getLast hu
  | @cons s t _ ht ih =>
    have hne : t ≠ [] := by
      rintro rfl
      exact absurd ht.startsName (by decide)
    rw [List.getLast?_append_of_ne_nil _ (List.cons_ne_nil _ _), List.getLast?_cons,
      List.getLast?_eq_some_getLast hne] at hu
    exact ih (by rw [List.getLast?_eq_some_getLast hne]; exact hu)

section Names

variable {room : Nat} {c : Cursor}

/-- Behind a lexeme that is required the cursor stands behind what was found. -/
theorem yields_require_endsName {what : Text} {find : Text → Option Text}
    (hfind : ∀ {t s : Text}, find t = some s → ∃ rest, t = s ++ rest ∧ s ≠ [] ∧
      ∀ u, s.getLast? = some u → u.isIdentifierChar = true) :
    Yields room (require what (Reader.lexeme find) : Grammar Rule Text) c fun _ d => d.EndsName := by
  refine Yields.bind (P := fun found d => found = none ∨ d.EndsName) (yields_read ?_) ?_
  · intro found n hread
    rw [Reader.lexeme] at hread
    split at hread
    · next s hs =>
      cases hread
      obtain ⟨rest, hahead, hne, hlast⟩ := hfind hs
      exact .inr (Cursor.endsName_advanceBy hahead hne hlast)
    · cases hread
      exact .inl rfl
  · -- where nothing was found the rule fails, so nothing is said of the cursor
    rintro (_ | found) d hd
    · exact yields_expected
    · exact yields_pure (hd.resolve_left (Option.some_ne_none found))

/-- Behind a name the cursor stands behind the end of a name. -/
theorem Expression.yields_name_endsName :
    Yields room Expression.name c fun _ d => d.EndsName := by
  refine yields_require_endsName fun {t s} hs => ?_
  obtain ⟨hname, rest, hrest, -⟩ := Text.isName_of_identifier? hs
  refine ⟨rest, hrest, ?_, fun u => hname.isIdentifierChar_getLast⟩
  rintro rfl
  exact absurd hname.1 (by decide)

/-- Behind a type the cursor stands behind the end of a name. -/
theorem Expression.yields_typeHint_endsName :
    Yields room Expression.typeHint c fun _ d => d.EndsName := by
  refine yields_require_endsName fun {t s} hs => ?_
  obtain ⟨hchain, rest, hrest⟩ := Text.isChain_of_chain? hs
  refine ⟨rest, hrest, ?_, fun u => hchain.isIdentifierChar_getLast⟩
  rintro rfl
  exact absurd hchain.startsName (by decide)

/-- The type of a parameter ends with a name, and where none is given its own name is still behind. -/
theorem Declaration.yields_argAnnotation_endsName (h : c.EndsName) :
    Yields room Declaration.argAnnotation c fun _ d => d.EndsName := by
  refine Yields.optional (Yields.bind (yields_reaches room gap c) fun _ d _ => ?_) h
  refine yields_look_bind ?_
  split
  · refine Yields.bind (yields_reaches room _ d) fun _ e _ => ?_
    refine Yields.bind (yields_reaches room gap e) fun _ f _ => ?_
    exact Expression.yields_typeHint_endsName.bind fun _ _ hg => yields_pure fun _ => hg
  · exact yields_pure fun hne => absurd rfl hne

end Names

namespace TokenPairing

section Rules

variable {p : TokenPairing} {room : Nat} {bs : Text} {c c' : Cursor}

/-! ### Pieces without values -/

/-- A type behind a colon is the same in both texts. -/
theorem carries_annotation :
    Carries p.reports room 0 (p.inside []) Declaration.annotation Declaration.annotation Eq
      (p.inside []) := by
  refine Carries.bind (carries_consume (by decide)) ?_
  rintro found _ rfl
  refine carries_ite (Carries.bind p.carries_skipSpaces fun _ _ _ => ?_) (carries_pure rfl)
  refine Carries.bind carries_typeHint ?_
  rintro hint _ rfl
  exact carries_pure rfl

/-- The names of a setter and a getter are the same. -/
theorem carries_accessors :
    Carries p.reports room 0 (p.inside []) Declaration.accessors Declaration.accessors Eq
      (p.inside []) := by
  -- the setter may be left out in front of the comma
  have hsetter : Carries p.reports room 0 (p.inside [])
      (do
        if ← check "," then return none
        else
          let found ← Expression.name
          skipSpaces
          return some found : Grammar Rule (Option Text))
      (do
        if ← check "," then return none
        else
          let found ← Expression.name
          skipSpaces
          return some found) Eq (p.inside []) := by
    refine Carries.bind (carries_check (by decide)) ?_
    rintro comma _ rfl
    refine carries_ite (carries_pure rfl) (Carries.bind carries_name ?_)
    rintro found _ rfl
    exact Carries.bind p.carries_skipSpaces fun _ _ _ => carries_pure rfl
  refine Carries.bind p.carries_skipSpaces fun _ _ _ => Carries.bind hsetter ?_
  rintro setter _ rfl
  refine Carries.bind (carries_consume (by decide)) ?_
  rintro comma _ rfl
  refine carries_ite (Carries.bind p.carries_skipSpaces fun _ _ _ => ?_) (carries_pure rfl)
  refine Carries.bind carries_name ?_
  rintro getter _ rfl
  exact carries_pure rfl

/-- What may be missing is the same in both texts. -/
theorem carries_optional_eq {α : Type} {g : Grammar Rule (Option α)}
    (hg : Carries p.reports room bs.length (p.inside bs) g g Eq (p.inside bs)) :
    Carries p.reports room bs.length (p.inside bs) (Grammar.optional g) (Grammar.optional g) Eq
      (p.inside bs) :=
  Carries.rewindIf hg fun _ _ hv => by rw [hv]

/-- Both texts name accessors, or none of them does. -/
theorem carries_setget :
    Carries p.reports room 0 (p.inside []) Declaration.setget Declaration.setget Eq (p.inside []) := by
  refine carries_optional_eq (Carries.bind p.carries_skipSpaces fun _ _ _ => ?_)
  refine Carries.bind (p.carries_read (Reader.isInline_keyword (by decide))) ?_
  rintro found _ rfl
  refine carries_ite (Carries.bind carries_accessors ?_) (carries_pure rfl)
  rintro names _ rfl
  exact carries_pure rfl

/-- The names of the parameters are the same. -/
theorem carries_signalParams :
    Carries p.reports room 0 (p.inside []) Declaration.signalParams Declaration.signalParams Eq
      (p.inside []) := by
  have hname : Carries p.reports room 1 (p.inside [CodeUnit.parenthesis]) Expression.name
      Expression.name (fun v v' => v' = id v) (p.inside [CodeUnit.parenthesis]) :=
    carries_name.mono (fun _ _ hv => hv.symm) fun _ _ hd => hd
  refine carries_optional_eq (Carries.bind p.carries_skipSpaces fun _ _ _ => ?_)
  refine Carries.bind (carries_check (by decide)) ?_
  rintro opened _ rfl
  refine carries_ite (Carries.bind (carries_parenthesized Expression.advances_name hname) ?_)
    (carries_pure rfl)
  rintro params _ rfl
  exact carries_pure (by rw [List.map_id])

/-- The type of a parameter is the same, across any gap. -/
theorem carries_argAnnotation :
    Carries p.reports room bs.length (p.inside bs) Declaration.argAnnotation Declaration.argAnnotation Eq
      (p.inside bs) := by
  refine carries_optional_eq (Carries.bind p.carries_gap fun _ _ _ => ?_)
  refine Carries.bind (p.carries_look Text.Alike.startsAnnotation) ?_
  rintro found _ rfl
  refine carries_ite (Carries.bind (carries_expect (by decide)) fun _ _ _ => ?_) (carries_pure rfl)
  refine Carries.bind p.carries_gap fun _ _ _ => Carries.bind carries_typeHint ?_
  rintro hint _ rfl
  exact carries_pure rfl

/-- A type behind a sign or a word is the same. -/
theorem carries_typeAfter {reader : Reader Bool} (hreader : reader.IsInline) :
    Carries p.reports room 0 (p.inside []) (Declaration.typeAfter reader)
      (Declaration.typeAfter reader) Eq (p.inside []) := by
  refine Carries.bind (p.carries_read hreader) ?_
  rintro found _ rfl
  refine carries_ite (Carries.bind p.carries_skipSpaces fun _ _ _ => ?_) (carries_pure rfl)
  refine Carries.bind carries_typeHint ?_
  rintro hint _ rfl
  exact Carries.bind p.carries_skipSpaces fun _ _ _ => carries_pure rfl

/-! ### Declarations without values -/

/-- The path of a base may be quoted for the other one, its name is the same. -/
theorem carries_extendsDecl :
    Carries p.reports room 0 (p.inside []) Declaration.extendsDecl Declaration.extendsDecl p.SameDecl
      (p.inside []) := by
  refine Carries.bind (carries_expectKeyword (by decide)) fun _ _ _ => ?_
  refine Carries.bind p.carries_skipSpaces fun _ _ _ => Carries.bind p.carries_string ?_
  rintro found _ rfl
  cases found with
  | some literal => exact carries_pure rfl
  | none =>
    refine Carries.bind carries_name ?_
    rintro found _ rfl
    exact carries_pure rfl

/-- The name of a script is the same. -/
theorem carries_classNameDecl :
    Carries p.reports room 0 (p.inside []) Declaration.classNameDecl Declaration.classNameDecl
      p.SameDecl (p.inside []) := by
  refine Carries.bind (carries_expectKeyword (by decide)) fun _ _ _ => ?_
  refine Carries.bind p.carries_skipSpaces fun _ _ _ => Carries.bind carries_name ?_
  rintro found _ rfl
  exact carries_pure rfl

/-- A signal is the same. -/
theorem carries_signalDecl :
    Carries p.reports room 0 (p.inside []) Declaration.signalDecl Declaration.signalDecl p.SameDecl
      (p.inside []) := by
  refine Carries.bind (carries_expectKeyword (by decide)) fun _ _ _ => ?_
  refine Carries.bind p.carries_skipSpaces fun _ _ _ => Carries.bind carries_name ?_
  rintro found _ rfl
  refine Carries.bind carries_signalParams ?_
  rintro params _ rfl
  exact carries_pure rfl

/-- One word is all that is read. -/
theorem carries_passStmt :
    Carries p.reports room bs.length (p.inside bs) Statement.passStmt Statement.passStmt p.SameStmt
      (p.inside bs) :=
  Carries.bind (carries_expectKeyword (by decide)) fun _ _ _ => carries_pure rfl

/-! ### Values -/

variable (hrules : p.PlainCarry room)

include hrules

/-- A value behind its sign goes alike. -/
theorem carries_initializer :
    Carries p.reports room 0 (p.inside []) Declaration.initializer Declaration.initializer
      (fun v v' => v' = v.map (Expr.mapText p.quoted)) (p.inside []) := by
  refine Carries.optional (Carries.bind p.carries_skipSpaces fun _ _ _ => ?_)
  refine Carries.bind (p.carries_look Text.Alike.startsInitializer) ?_
  rintro found _ rfl
  refine carries_ite (Carries.bind (carries_expect (by decide)) fun _ _ _ => ?_) (carries_pure rfl)
  refine Carries.bind p.carries_skipSpaces fun _ _ _ => Carries.bind (carries_expr hrules) ?_
  rintro value _ rfl
  exact carries_pure rfl

/-- The type of a variable is the same, and its value goes alike. -/
theorem carries_binding :
    Carries p.reports room 0 (p.inside []) Declaration.binding Declaration.binding
      (fun v v' => v' = (v.1, v.2.map (Expr.mapText p.quoted))) (p.inside []) := by
  refine Carries.bind p.carries_skipSpaces fun _ _ _ => Carries.bind (carries_consume (by decide)) ?_
  rintro inferred _ rfl
  -- with `:=` the value follows at once; else a type and a value may be given
  refine carries_ite (Carries.bind p.carries_skipSpaces fun _ _ _ => ?_) ?_
  · refine Carries.bind (carries_expr hrules) ?_
    rintro value _ rfl
    exact carries_pure rfl
  · refine Carries.bind carries_annotation ?_
    rintro hint _ rfl
    refine Carries.bind (carries_initializer hrules) ?_
    rintro value _ rfl
    exact carries_pure rfl

/-- A variable goes alike up to its value. -/
theorem carries_varDecl :
    Carries p.reports room 0 (p.inside []) Declaration.varDecl Declaration.varDecl p.SameDecl
      (p.inside []) := by
  refine Carries.bind (p.carries_read (Reader.isInline_oneOf (by decide))) ?_
  rintro modifier _ rfl
  refine Carries.bind p.carries_skipSpaces fun _ _ _ => ?_
  refine Carries.bind (carries_expectKeyword (by decide)) fun _ _ _ => ?_
  refine Carries.bind p.carries_skipSpaces fun _ _ _ => Carries.bind carries_name ?_
  rintro found _ rfl
  refine Carries.bind (carries_binding hrules) ?_
  rintro ⟨typing, value⟩ _ rfl
  refine Carries.bind carries_setget ?_
  rintro names _ rfl
  refine carries_pure ?_
  rw [SameDecl, Decl.map, Decl.map, VarDecl.mapText, VarDecl.mapText, Expr.map_mapText_id]

/-- A constant without a value is refused in both texts. -/
theorem carries_constDecl :
    Carries p.reports room 0 (p.inside []) Declaration.constDecl Declaration.constDecl p.SameDecl
      (p.inside []) := by
  refine Carries.bind (carries_expectKeyword (by decide)) fun _ _ _ => ?_
  refine Carries.bind p.carries_skipSpaces fun _ _ _ => Carries.bind carries_name ?_
  rintro found _ rfl
  refine Carries.bind (carries_binding hrules) ?_
  rintro ⟨typing, value⟩ _ rfl
  cases value with
  | none => exact p.carries_expected _
  | some value =>
    refine carries_pure ?_
    rw [SameDecl, Decl.map, Decl.map, ConstDecl.mapText, ConstDecl.mapText, Expr.mapText_id]

/-! ### Enumerations -/

/-- A variant goes alike up to its value. -/
theorem carries_enumVariant :
    Carries p.reports room bs.length (p.inside bs) Declaration.enumVariant Declaration.enumVariant
      (fun v v' => v' = v.mapText p.quoted) (p.inside bs) := by
  refine Carries.bind p.carries_gap fun _ _ _ => Carries.bind carries_name ?_
  rintro found _ rfl
  refine Carries.bind p.carries_gap fun _ _ _ => ?_
  refine Carries.bind (p.carries_look Text.Alike.startsInitializer) ?_
  rintro hasValue _ rfl
  refine carries_ite (Carries.bind (carries_expect (by decide)) fun _ _ _ => ?_) (carries_pure rfl)
  refine Carries.bind p.carries_gap fun _ _ _ => Carries.bind (carries_expr hrules) ?_
  rintro value _ rfl
  exact carries_pure rfl

/-- A comma asks for another variant, unless the brace closes behind it. -/
theorem carries_variantTurn (found : List EnumVariant) :
    Carries p.reports room bs.length (p.inside bs) (Declaration.variantTurn found)
      (Declaration.variantTurn (found.map (EnumVariant.mapText p.quoted)))
      (Next.Rel fun v v' => v' = v.map (EnumVariant.mapText p.quoted)) (p.inside bs) := by
  have hvariant : Carries p.reports room bs.length (p.inside bs) (call Rule.enumVariant)
      (call Rule.enumVariant) (fun v v' => v' = v.mapText p.quoted) (p.inside bs) :=
    fun c c' hc => hrules .enumVariant bs c c' trivial trivial hc
  refine Carries.bind p.carries_gap fun _ _ _ => Carries.bind (carries_consume (by decide)) ?_
  rintro comma _ rfl
  refine carries_ite (Carries.bind p.carries_gap fun _ _ _ => ?_) (carries_pure rfl)
  refine Carries.bind (carries_check (by decide)) ?_
  rintro closed _ rfl
  refine carries_ite (carries_pure rfl) (Carries.bind hvariant ?_)
  rintro variant _ rfl
  exact carries_pure rfl

/-- The variants go alike one by one. -/
theorem carries_variants :
    Carries p.reports room bs.length (p.inside bs) Declaration.variants Declaration.variants
      (fun v v' => v' = v.map (EnumVariant.mapText p.quoted)) (p.inside bs) := by
  have hvariant : Carries p.reports room (bs.length + 1) (p.inside (0x7B :: bs))
      (call Rule.enumVariant) (call Rule.enumVariant) (fun v v' => v' = v.mapText p.quoted)
      (p.inside (0x7B :: bs)) :=
    fun c c' hc => hrules .enumVariant (0x7B :: bs) c c' trivial trivial hc
  have hturn := Declaration.turnsAdvance_variantTurn room
  rw [Declaration.variants_eq]
  -- behind the brace line ends are a gap
  refine Carries.bind (p.carries_expect_opener (u := 0x7B) rfl rfl) fun _ _ _ => Carries.bracketed ?_
  refine Carries.bind hvariant ?_
  rintro first _ rfl
  refine Carries.bind (Carries.iterate hturn hturn
    (V := fun v v' => v' = v.map (EnumVariant.mapText p.quoted)) rfl ?_) ?_
  · rintro found _ rfl
    exact carries_variantTurn hrules found
  · rintro all _ rfl
    refine Carries.bind p.carries_gap fun _ _ _ => ?_
    refine Carries.bind (p.carries_expect_closer (u := 0x7D) rfl rfl) fun _ _ _ => ?_
    exact carries_pure List.map_reverse.symm

/-- The name is missing in both texts or in none. -/
theorem carries_enumDecl :
    Carries p.reports room 0 (p.inside []) Declaration.enumDecl Declaration.enumDecl p.SameDecl
      (p.inside []) := by
  have hname : Carries p.reports room 0 (p.inside [])
      (do
        if ← check "\x7b" then return none
        else
          let given ← Expression.name
          return some given : Grammar Rule (Option Text))
      (do
        if ← check "\x7b" then return none
        else
          let given ← Expression.name
          return some given) Eq (p.inside []) := by
    refine Carries.bind (carries_check (by decide)) ?_
    rintro opened _ rfl
    refine carries_ite (carries_pure rfl) (Carries.bind carries_name ?_)
    rintro given _ rfl
    exact carries_pure rfl
  refine Carries.bind (carries_expectKeyword (by decide)) fun _ _ _ => ?_
  refine Carries.bind p.carries_skipSpaces fun _ _ _ => Carries.bind hname ?_
  rintro found _ rfl
  refine Carries.bind p.carries_skipSpaces fun _ _ _ => Carries.bind (carries_variants hrules) ?_
  rintro all _ rfl
  refine carries_pure ?_
  -- the names are the same in both texts, and only the values are quoted
  rw [SameDecl, Decl.map, Decl.map, EnumVariant.map_mapText_id]

/-! ### Parameters -/

/-- Behind the name or the type of a parameter its default is found in both texts. -/
theorem pairs_default (hc : p.inside (CodeUnit.parenthesis :: bs) c c') (hname : c.EndsName) :
    Pairs p.reports room (bs.length + 1) Declaration.initializer Declaration.initializer c c'
      fun v v' d d' =>
        v' = v.map (Expr.mapText p.quoted) ∧ p.inside (CodeUnit.parenthesis :: bs) d d' := by
  refine Pairs.optional ?_ ⟨rfl, hc⟩
  -- the cursors need not go together behind the first gap, where no default is given
  refine Pairs.bind (Q := fun _ _ d d' => d = c.advanceBy c.ahead.gapLength ∧
    d' = c'.advanceBy c'.ahead.gapLength) (pairs_read (.took ⟨rfl, rfl⟩)) ?_
  rintro _ _ _ _ ⟨rfl, rfl⟩
  have hsame := p.isDefault hc hname
  refine pairs_look_bind ?_
  rw [Cursor.ahead_advanceBy, Cursor.ahead_advanceBy, hsame]
  by_cases hdefault : Declaration.startsInitializer (c.ahead.drop c.ahead.gapLength) = true
  · rw [if_pos hdefault]
    have hbehind := p.default hc hname hdefault
    refine Pairs.bind (Q := fun _ _ d d' => d = c.advanceBy (c.ahead.gapLength + 1) ∧
      d' = c'.advanceBy (c'.ahead.gapLength + 1)) (pairs_read ?_) ?_
    · have hsign : ∀ {t : Text}, Declaration.startsInitializer t = true →
          Reader.expect "=" t = .took () 1 := fun h => if_pos (Bool.and_eq_true_iff.mp h).1
      rw [Cursor.ahead_advanceBy, Cursor.ahead_advanceBy, hsign hdefault,
        hsign (hsame.trans hdefault)]
      exact .took ⟨Cursor.advanceBy_advanceBy _ _ c, Cursor.advanceBy_advanceBy _ _ c'⟩
    · rintro _ _ _ _ ⟨rfl, rfl⟩
      refine Pairs.bind (Q := fun _ _ d d' => p.inside (CodeUnit.parenthesis :: bs) d d')
        (pairs_read (.took ?_)) fun _ _ d d' hd => ?_
      · rw [Cursor.ahead_advanceBy, Cursor.ahead_advanceBy, Cursor.advanceBy_advanceBy,
          Cursor.advanceBy_advanceBy]
        exact hbehind
      · refine (carries_expr hrules d d' hd).bind ?_
        rintro value _ e e' ⟨rfl, he⟩
        exact pairs_pure (.inr ⟨_, _, rfl, rfl, rfl, he⟩)
  · rw [if_neg hdefault]
    exact pairs_pure (.inl ⟨rfl, rfl⟩)

/-- A parameter goes alike up to its default value. -/
theorem carries_functionArg :
    Carries p.reports room (bs.length + 1) (p.inside (CodeUnit.parenthesis :: bs))
      Declaration.functionArg Declaration.functionArg (fun v v' => v' = v.mapText p.quoted)
      (p.inside (CodeUnit.parenthesis :: bs)) := by
  intro c c' hc
  -- the default is looked for behind a gap, and the gap may differ only behind the end of a name
  refine ((carries_name c c' hc).and_yields Expression.yields_name_endsName
    (yields_reaches room _ c')).bind ?_
  rintro found _ d d' ⟨⟨rfl, hd⟩, hname, -⟩
  have hhint : Pairs p.reports room (bs.length + 1) Declaration.argAnnotation
      Declaration.argAnnotation d d' _ := carries_argAnnotation d d' hd
  refine (hhint.and_yields (Declaration.yields_argAnnotation_endsName hname)
    (yields_reaches room _ d')).bind ?_
  rintro hint _ e e' ⟨⟨rfl, he⟩, hends, -⟩
  refine (pairs_default hrules he hends).bind ?_
  rintro value _ f f' ⟨rfl, hf⟩
  exact pairs_pure ⟨rfl, hf⟩

/-- The parameters go alike inside their parentheses. -/
theorem carries_functionArgs :
    Carries p.reports room 0 (p.inside []) Declaration.functionArgs Declaration.functionArgs
      (fun v v' => v' = v.map (FunctionArg.mapText p.quoted)) (p.inside []) := by
  have harg : Carries p.reports room 1 (p.inside [CodeUnit.parenthesis]) (call Rule.functionArg)
      (call Rule.functionArg) (fun v v' => v' = v.mapText p.quoted)
      (p.inside [CodeUnit.parenthesis]) :=
    fun c c' hc => hrules .functionArg [CodeUnit.parenthesis] c c' trivial rfl hc
  exact carries_parenthesized (Rule.advances room .functionArg fun _ => trivial) harg

/-! ### Simple statements -/

/-- The target, the sign and the value go alike. -/
theorem carries_assignStmt :
    Carries p.reports room 0 (p.inside []) Statement.assignStmt Statement.assignStmt p.SameStmt
      (p.inside []) := by
  refine Carries.bind (carries_postfixed hrules) ?_
  rintro target _ rfl
  refine Carries.bind p.carries_skipSpaces fun _ _ _ => ?_
  refine Carries.bind (p.carries_read (Reader.isInline_operator (by decide))) ?_
  rintro found _ rfl
  cases found with
  | none => exact p.carries_expected _
  | some op =>
    refine Carries.bind p.carries_skipSpaces fun _ _ _ => Carries.bind (carries_expr hrules) ?_
    rintro value _ rfl
    refine carries_pure ?_
    rw [SameStmt, Stmt.map, Stmt.map, Expr.mapText_id, Expr.mapText_id]

/-- A value follows in both texts or in none. -/
theorem carries_returnStmt :
    Carries p.reports room 0 (p.inside []) Statement.returnStmt Statement.returnStmt p.SameStmt
      (p.inside []) := by
  refine Carries.bind (carries_expectKeyword (by decide)) fun _ _ _ c c' hc => ?_
  -- whether a value follows is told behind the gap
  refine Pairs.bind (Q := fun _ _ d d' => p.inside [] d d' ∧
    Statement.endsItem d'.ahead = Statement.endsItem d.ahead) (pairs_read (.took ⟨p.spaces hc, ?_⟩)) ?_
  · rw [Cursor.ahead_advanceBy, Cursor.ahead_advanceBy, p.endsItem hc]
  · rintro _ _ d d' ⟨hd, hends⟩
    refine pairs_look_bind ?_
    rw [hends]
    split
    · exact pairs_pure ⟨rfl, hd⟩
    · refine (carries_expr hrules d d' hd).bind ?_
      rintro value _ e e' ⟨rfl, he⟩
      refine pairs_pure ⟨?_, he⟩
      rw [SameStmt, Stmt.map, Stmt.map, Expr.map_mapText_id]
      rfl

/-! ### Functions and classes -/

section Bodies

variable {indent indent' : Nat}

/-- A header is read alike, so what becomes of a function is told by what becomes of its body. -/
theorem relates_functionDecl {S : Outcome Decl → Outcome Decl → Prop} (hfails : p.reports.Fails S)
    (hbody : ∀ head c c', p.inside [] c c' → Relates p.reports room 0 S
      (do let body ← call (Rule.indentedBlock indent); return .functionDecl head body)
      (do
        let body ← call (Rule.indentedBlock indent')
        return .functionDecl (head.mapText p.quoted) body) c c')
    {c c' : Cursor} (hc : p.inside [] c c') :
    Relates p.reports room 0 S (Declaration.functionDecl indent) (Declaration.functionDecl indent')
      c c' := by
  refine (p.carries_read (Reader.isInline_oneOf (by decide)) c c' hc).then hfails ?_
  rintro modifier _ c c' ⟨rfl, hc⟩
  refine (p.carries_skipSpaces c c' hc).then hfails fun _ _ c c' hc => ?_
  refine (carries_expectKeyword (by decide) c c' hc.2).then hfails fun _ _ c c' hc => ?_
  refine (p.carries_skipSpaces c c' hc.2).then hfails fun _ _ c c' hc => ?_
  refine (carries_name c c' hc.2).then hfails ?_
  rintro found _ c c' ⟨rfl, hc⟩
  refine (p.carries_skipSpaces c c' hc).then hfails fun _ _ c c' hc => ?_
  refine (carries_functionArgs hrules c c' hc.2).then hfails ?_
  rintro args _ c c' ⟨rfl, hc⟩
  refine (p.carries_skipSpaces c c' hc).then hfails fun _ _ c c' hc => ?_
  refine (carries_typeAfter (Reader.isInline_consume (by decide)) c c' hc.2).then hfails ?_
  rintro returnType _ c c' ⟨rfl, hc⟩
  refine (carries_expect (by decide) c c' hc).then hfails fun _ _ c c' hc => ?_
  -- the head is the same up to quoted texts; the body is left to the caller
  exact hbody ⟨modifier, found, args, returnType⟩ c c' hc.2

omit hrules in
/-- The name and the base of a class are read alike, so what becomes of it is told by its body. -/
theorem relates_classDecl {S : Outcome Decl → Outcome Decl → Prop} (hfails : p.reports.Fails S)
    (hbody : ∀ found base c c', p.inside [] c c' → Relates p.reports room 0 S
      (do let body ← call (Rule.indentedBlock indent); return .classDecl found base body)
      (do let body ← call (Rule.indentedBlock indent'); return .classDecl found base body) c c')
    {c c' : Cursor} (hc : p.inside [] c c') :
    Relates p.reports room 0 S (Declaration.classDecl indent) (Declaration.classDecl indent')
      c c' := by
  refine (carries_expectKeyword (by decide) c c' hc).then hfails fun _ _ c c' hc => ?_
  refine (p.carries_skipSpaces c c' hc.2).then hfails fun _ _ c c' hc => ?_
  refine (carries_name c c' hc.2).then hfails ?_
  rintro found _ c c' ⟨rfl, hc⟩
  refine (p.carries_skipSpaces c c' hc).then hfails fun _ _ c c' hc => ?_
  refine (carries_typeAfter (Reader.isInline_keyword (by decide)) c c' hc.2).then hfails ?_
  rintro base _ c c' ⟨rfl, hc⟩
  refine (carries_expect (by decide) c c' hc).then hfails fun _ _ c c' hc => ?_
  -- a class quotes nothing in its head
  exact hbody found base c c' hc.2

/-! ### Conditions -/

/-- An expression and a colon are read alike, so what becomes of the block behind them tells the rest. -/
theorem relates_condition {S : Outcome Condition → Outcome Condition → Prop}
    (hfails : p.reports.Fails S)
    (hbody : ∀ test c c', p.inside [] c c' → Relates p.reports room 0 S
      (do let body ← call (Rule.indentedBlock indent); return .mk test body)
      (do let body ← call (Rule.indentedBlock indent'); return .mk (test.mapText p.quoted) body) c c')
    {c c' : Cursor} (hc : p.inside [] c c') :
    Relates p.reports room 0 S (Statement.condition indent) (Statement.condition indent') c c' := by
  refine (p.carries_skipSpaces c c' hc).then hfails fun _ _ c c' hc => ?_
  refine (carries_expr hrules c c' hc.2).then hfails ?_
  rintro test _ c c' ⟨rfl, hc⟩
  refine (p.carries_skipSpaces c c' hc).then hfails fun _ _ c c' hc => ?_
  refine (carries_expect (by decide) c c' hc.2).then hfails fun _ _ c c' hc => ?_
  exact hbody test c c' hc.2

/-! ### Cases -/

/-- So are the subject of the cases and the colon behind it. -/
theorem relates_matchStmt {S : Outcome Stmt → Outcome Stmt → Prop} (hfails : p.reports.Fails S)
    (hbody : ∀ subject c c', p.inside [] c c' → Relates p.reports room 0 S
      (Statement.matchBody indent subject) (Statement.matchBody indent' (subject.mapText p.quoted))
      c c') {c c' : Cursor} (hc : p.inside [] c c') :
    Relates p.reports room 0 S (Statement.matchStmt indent) (Statement.matchStmt indent') c c' := by
  refine (carries_expectKeyword (by decide) c c' hc).then hfails fun _ _ c c' hc => ?_
  refine (p.carries_skipSpaces c c' hc.2).then hfails fun _ _ c c' hc => ?_
  refine (carries_expr hrules c c' hc.2).then hfails ?_
  rintro subject _ c c' ⟨rfl, hc⟩
  refine (p.carries_skipSpaces c c' hc).then hfails fun _ _ c c' hc => ?_
  refine (carries_expect (by decide) c c' hc.2).then hfails fun _ _ c c' hc => ?_
  exact hbody subject c c' hc.2

end Bodies

end Rules

/-! ### Every rule that reads no block -/

section

variable {p : TokenPairing} {room : Nat} {bs : Text}

/-- The bodies of the rules that read no block go alike, when the rules do that they call. -/
theorem pairs_plainBody (hrules : p.PlainCarry room) {α : Type} (rule : Rule α) (c c' : Cursor)
    (hrule : rule.IsPlain) (hfits : Fits rule bs) (h : p.inside bs c c') :
    Pairs p.reports room bs.length rule.body (p.rule rule).body c c' fun v v' d d' =>
      p.Found rule v v' ∧ p.inside bs d d' := by
  -- only declarations and simple statements ask for no open bracket
  cases rule with
  | varDecl =>
    obtain rfl : bs = [] := hfits
    exact carries_varDecl hrules c c' h
  | constDecl =>
    obtain rfl : bs = [] := hfits
    exact carries_constDecl hrules c c' h
  | extendsDecl =>
    obtain rfl : bs = [] := hfits
    exact carries_extendsDecl c c' h
  | classNameDecl =>
    obtain rfl : bs = [] := hfits
    exact carries_classNameDecl c c' h
  | signalDecl =>
    obtain rfl : bs = [] := hfits
    exact carries_signalDecl c c' h
  | enumDecl =>
    obtain rfl : bs = [] := hfits
    exact carries_enumDecl hrules c c' h
  | enumVariant => exact carries_enumVariant hrules c c' h
  | functionArg =>
    obtain ⟨bs, rfl⟩ := List.head?_eq_some_iff.mp hfits
    exact carries_functionArg hrules c c' h
  | assignStmt =>
    obtain rfl : bs = [] := hfits
    exact carries_assignStmt hrules c c' h
  | returnStmt =>
    obtain rfl : bs = [] := hfits
    exact carries_returnStmt hrules c c' h
  | passStmt => exact carries_passStmt c c' h
  | expr => exact carries_atLevel hrules (Nat.zero_le 3) c c' h
  | unary op =>
    refine (carries_unary hrules c c' h).bind ?_
    rintro operand _ d d' ⟨rfl, hd⟩
    exact pairs_pure ⟨rfl, hd⟩
  | parens => exact carries_enclosed hrules (u := 0x28) (v := 0x29) rfl rfl rfl rfl c c' h
  | index => exact carries_enclosed hrules (u := 0x5B) (v := 0x5D) rfl rfl rfl rfl c c' h
  | member name => exact carries_chain hrules name c c' h
  | value => exact carries_value hrules c c' h
  | int => exact p.carries_read Reader.isInline_int c c' h
  | string => exact carries_stringValue c c' h
  | nodePath => exact carries_nodePathValue c c' h
  | array => exact carries_array hrules c c' h
  | object => exact carries_object hrules c c' h
  | pair => exact carries_pair hrules c c' h
  | functionCall name =>
    refine (carries_callArguments hrules c c' h).bind ?_
    rintro args _ d d' ⟨rfl, hd⟩
    refine pairs_pure ⟨?_, hd⟩
    rw [Found, SameExpr, Expr.mapText, Expr.mapTextList_eq_map]
  | _ => exact hrule.elim

/-- The rules that read no block go alike, with any room. -/
theorem plainCarry (p : TokenPairing) (room : Nat) : p.PlainCarry room :=
  -- the rules call each other, so this is by induction on the room for calls
  fun rule bs c c' hrule hfits h => pairs_call_of_bodies List.length
    (E := fun rule bs c c' => rule.IsPlain ∧ Fits rule bs ∧ p.inside bs c c')
    (S := fun rule bs v v' d d' => p.Found rule v v' ∧ p.inside bs d d')
    p.label_rule (fun _ _ _ _ h => p.place_inside h.2.2)
    (fun _ hrules _ rule _ c c' h =>
      pairs_plainBody (fun rule bs c c' hrule hfits hc => hrules rule bs c c' ⟨hrule, hfits, hc⟩) rule
        c c' h.1 h.2.1 h.2.2)
    room rule bs c c' ⟨hrule, hfits, h⟩

end

end TokenPairing

end GDScript
