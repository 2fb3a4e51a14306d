import GDScript.Proofs.Expression.Value
import GDScript.Proofs.Pairing.Token
import GDScript.Proofs.Uses

/-!
# Expressions in two texts

`TokenPairing.PlainCarry` says of the rules that read no block that they go alike in both texts of a
pairing: what is found is the same apart from quotations and places (`TokenPairing.Found`), and the
cursors stand for each other again. It is assumed here of the rules that expressions call, and shown of
what the rules about expressions read.
-/

namespace GDScript

open Grammar

/-- The point before a member is looked for in the token. -/
theorem Text.Alike.startsMember {t t' : Text} (h : t.SameToken t') :
    Expression.startsMember t' = Expression.startsMember t := by
  have hstop : ∀ {s : Text}, (∀ u ∈ s.head?, u ∈ CodeUnit.tokenEnds) →
      Expression.startsMember s = false := by
    intro s hs
    have hdot : (s.head? == some CodeUnit.dot) = false := by
      rw [beq_eq_false_iff_ne]
      exact fun h => absurd (hs _ h) (by decide)
    rw [Expression.startsMember, hdot, Bool.false_and]
  -- the point itself is a unit on which the texts agree, and then so is the name behind it
  cases h with
  | stop h h' => rw [hstop h, hstop h']
  | unit _ hrest =>
    have hname := Text.Alike.startsName hrest
    simp only [Expression.startsMember, List.head?_cons, List.drop_succ_cons, List.drop_zero, hname]

theorem Reader.isInline_startsMember : (takeIf 1 Expression.startsMember).IsInline := by
  refine isInline_takeIf Text.Alike.startsMember fun {t} hstarts => ?_
  cases t with
  | nil => exact Bool.noConfusion hstarts
  | cons u t =>
    have hu : u = CodeUnit.dot := by
      simp only [Expression.startsMember, Bool.and_eq_true, List.head?_cons, beq_iff_eq,
        Option.some.injEq] at hstarts
      exact hstarts.1
    rw [hu]
    exact Text.startsPlain_append (s := [CodeUnit.dot]) (by decide) t

namespace Expression

theorem value_eq : value = (look List.head? >>= fun next =>
    next.elim (expected "expression") valueFrom : Grammar Rule Expr) :=
  congrArg (look List.head? >>= ·) (funext fun next => by cases next <;> rfl)

/-- No value starts where a token has ended. -/
theorem valueFrom_of_tokenEnd {u : CodeUnit} (h : u ∈ CodeUnit.tokenEnds) :
    valueFrom u = expected "expression" := by
  have hends : CodeUnit.tokenEnds = [0x0A, 0x0D, 0x20, 0x09, 0x3B, 0x23] := by decide
  simp only [hends, List.mem_cons, List.not_mem_nil, or_false] at h
  rcases h with rfl | rfl | rfl | rfl | rfl | rfl <;> rfl

end Expression

namespace TokenPairing

variable (p : TokenPairing)

/-! ### What is said of the rules -/

/-- The rule by which the other text is read. -/
def rule : {α : Type} → Rule α → Rule α
  | _, .member name => .member (name.mapText p.quoted)
  | _, rule => rule

/-- A call has the same label in both texts. -/
theorem label_rule {α : Type} (rule : Rule α) : (p.rule rule).label = rule.label := by
  cases rule <;> rfl

/-- The lines are the same, apart from their quotations and as far as their places are kept. -/
def SameBlock (lines lines' : Block) : Prop := lines'.map id p.view' = lines.map p.quoted p.view

/-- The branches are the same, apart from quotations and as far as places are kept. -/
def SameCondition (branch branch' : Condition) : Prop :=
  branch'.map id p.view' = branch.map p.quoted p.view

/-- So are all of some branches. -/
def SameConditions (branches branches' : List Condition) : Prop :=
  branches'.map (Condition.map id p.view') = branches.map (Condition.map p.quoted p.view)

/-- The declarations are the same, apart from quotations and as far as places are kept. -/
def SameDecl (d d' : Decl) : Prop := d'.map id p.view' = d.map p.quoted p.view

/-- The statements are the same, apart from quotations and as far as places are kept. -/
def SameStmt (s s' : Stmt) : Prop := s'.map id p.view' = s.map p.quoted p.view

/-- The expression of the other text. -/
def SameExpr (e e' : Expr) : Prop := e' = e.mapText p.quoted

/-- What a rule finds in both texts. -/
def Found : {α : Type} → Rule α → α → α → Prop
  | _, .file, v, v' | _, .block _ _, v, v' | _, .indentedBlock _, v, v' | _, .line _, v, v'
  | _, .elseBranch _, v, v' => p.SameBlock v v'
  | _, .decl _, v, v' | _, .varDecl, v, v' | _, .constDecl, v, v' | _, .extendsDecl, v, v'
  | _, .classNameDecl, v, v' | _, .signalDecl, v, v' | _, .enumDecl, v, v'
  | _, .functionDecl _, v, v' | _, .classDecl _, v, v' => p.SameDecl v v'
  -- variants, parameters and pairs hold quoted texts, but no spans
  | _, .enumVariant, v, v' => v' = v.mapText p.quoted
  | _, .functionArg, v, v' => v' = v.mapText p.quoted
  | _, .stmt _, v, v' | _, .ifStmt _, v, v' | _, .whileStmt _, v, v' | _, .forStmt _, v, v'
  | _, .matchStmt _, v, v' | _, .assignStmt, v, v' | _, .returnStmt, v, v'
  | _, .passStmt, v, v' => p.SameStmt v v'
  | _, .elifBranch _, v, v' | _, .matchCase _, v, v' | _, .condition _, v, v' => p.SameCondition v v'
  | _, .expr, v, v' | _, .unary _, v, v' | _, .parens, v, v' | _, .index, v, v'
  | _, .member _, v, v' | _, .value, v, v' | _, .string, v, v' | _, .nodePath, v, v'
  | _, .array, v, v' | _, .object, v, v' | _, .functionCall _, v, v' => p.SameExpr v v'
  | _, .int, v, v' => v = v'
  | _, .pair, v, v' => v' = v.map (Expr.mapText p.quoted) (Expr.mapText p.quoted)

/-- The brackets in which a rule that reads no block is entered. -/
def Fits : {α : Type} → Rule α → Text → Prop
  | _, .functionArg, bs => bs.head? = some CodeUnit.parenthesis
  | _, .varDecl, bs | _, .constDecl, bs | _, .extendsDecl, bs | _, .classNameDecl, bs
  | _, .signalDecl, bs | _, .enumDecl, bs | _, .assignStmt, bs | _, .returnStmt, bs => bs = []
  | _, _, _ => True

/-- The rules that read no block go alike in both texts. -/
def PlainCarry (room : Nat) : Prop :=
  ∀ {α : Type} (rule : Rule α) (bs : Text) (c c' : Cursor), rule.IsPlain → Fits rule bs →
    p.inside bs c c' → Pairs p.reports room bs.length (call rule) (call (p.rule rule)) c c'
      fun v v' d d' => p.Found rule v v' ∧ p.inside bs d d'

/-! ### Pieces that keep to the token -/

section Pieces

variable {p : TokenPairing} {room : Nat} {bs : Text}

/-- A text that goes on with no token is ahead in both texts, or in none of them. -/
theorem carries_check {text : Text} (h : ∀ u ∈ text, u ∉ CodeUnit.tokenEnds) :
    Carries p.reports room bs.length (p.inside bs) (check text : Grammar Rule Bool) (check text) Eq
      (p.inside bs) :=
  p.carries_look fun hsame => hsame.isPrefixOf h

/-- A text is taken from both texts or from none. -/
theorem carries_consume {text : Text} (h : ∀ u ∈ text, u.isInner = true) :
    Carries p.reports room bs.length (p.inside bs) (consume text : Grammar Rule Bool) (consume text) Eq
      (p.inside bs) :=
  p.carries_read (Reader.isInline_consume h)

/-- A text that is missing is missing in both texts. -/
theorem carries_expect {text : Text} (h : ∀ u ∈ text, u.isInner = true) :
    Carries p.reports room bs.length (p.inside bs) (expect text : Grammar Rule Unit) (expect text) Eq
      (p.inside bs) :=
  p.carries_read (Reader.isInline_expect h)

/-- A keyword that is missing is missing in both texts. -/
theorem carries_expectKeyword {word : Text} (h : ∀ u ∈ word, u.isInner = true) :
    Carries p.reports room bs.length (p.inside bs) (expectKeyword word : Grammar Rule Unit)
      (expectKeyword word) Eq (p.inside bs) :=
  p.carries_read (Reader.isInline_expectKeyword h)

/-- The names are equal. -/
theorem carries_name :
    Carries p.reports room bs.length (p.inside bs) Expression.name Expression.name Eq (p.inside bs) :=
  p.carries_require Reader.isInline_identifier

/-- The types are equal. -/
theorem carries_typeHint :
    Carries p.reports room bs.length (p.inside bs) Expression.typeHint Expression.typeHint Eq (p.inside bs) :=
  p.carries_require Reader.isInline_dottedIdentifier

/-- A constant holds no quotation. -/
theorem carries_constant :
    Carries p.reports room bs.length (p.inside bs) (read Expression.constant : Grammar Rule (Option Expr))
      (read Expression.constant) (fun v v' => v = v' ∧ ∀ e, v = some e → p.SameExpr e e)
      (p.inside bs) := by
  intro c c' hc
  -- a constant comes from the table, and the table holds no strings or paths
  refine ((p.carries_read Reader.isInline_constant c c' hc).and_yields
    (S := fun v _ => ∀ e, v = some e → p.SameExpr e e) (yields_read fun v k hread e he => ?_)
    (yields_reaches room _ c')).mono fun v v' d d' h => ⟨⟨h.1.1, h.2.1⟩, h.1.2⟩
  unfold Expression.constant at hread
  split at hread
  · next word value hfind =>
    have hmem := List.mem_of_find?_eq_some hfind
    have hvalue : e = value := by
      rw [← Reading.took.inj hread |>.1] at he
      exact (Option.some.inj he).symm
    simp only [List.mem_cons, Prod.mk.injEq, List.not_mem_nil, or_false] at hmem
    rw [hvalue]
    rcases hmem with h | h | h | h | h <;> rw [h.2] <;> rfl
  · rw [← Reading.took.inj hread |>.1] at he
    cases he

end Pieces

/-! ### Lists -/

section Lists

variable {p : TokenPairing} {room : Nat} {bs : Text} {α : Type} {item : Grammar Rule α} {F : α → α}
  (hadvances : Advances room item)

include hadvances

/-- Items go alike one by one, and so do the commas between them. -/
theorem carries_commaSeparated
    (hitem : Carries p.reports room bs.length (p.inside bs) item item (fun v v' => v' = F v) (p.inside bs)) :
    Carries p.reports room bs.length (p.inside bs) (commaSeparated item) (commaSeparated item)
      (fun items items' => items' = items.map F) (p.inside bs) := by
  have hturn := turnsAdvance_commaTurn hadvances
  rw [commaSeparated_eq]
  refine Carries.bind (V := fun items items' => items' = items.map F)
    (Carries.iterate hturn hturn rfl ?_) ?_
  · rintro items _ rfl
    refine hitem.bind ?_
    rintro found _ rfl
    refine Carries.bind p.carries_gap fun _ _ _ => ?_
    refine Carries.bind (p.carries_read (Reader.isInline_consume (by decide))) ?_
    -- both runs find the comma or both do not
    rintro comma _ rfl
    refine carries_ite ?_ (carries_pure rfl)
    exact Carries.bind p.carries_gap fun _ _ _ => carries_pure rfl
  · rintro items _ rfl
    exact carries_pure (List.map_reverse).symm

/-- The items in parentheses go alike, with one bracket more around them. -/
theorem carries_parenthesized
    (hitem : Carries p.reports room (bs.length + 1) (p.inside (CodeUnit.parenthesis :: bs)) item item
      (fun v v' => v' = F v) (p.inside (CodeUnit.parenthesis :: bs))) :
    Carries p.reports room bs.length (p.inside bs) (parenthesized item) (parenthesized item)
      (fun items items' => items' = items.map F) (p.inside bs) := by
  refine Carries.bind (p.carries_expect_opener (u := 0x28) rfl rfl) fun _ _ _ => Carries.bracketed ?_
  refine Carries.bind p.carries_gap fun _ _ _ => fun c c' hc => ?_
  refine (p.pairs_consume_closer (u := 0x29) rfl rfl hc).bind ?_
  rintro closed _ d d' ⟨rfl, hd⟩
  -- no items at all, or items up to the closing parenthesis
  cases closed with
  | true => exact pairs_pure ⟨rfl, hd⟩
  | false =>
    refine (carries_commaSeparated hadvances hitem).bind ?_ d d' hd
    rintro items _ rfl
    exact Carries.bind (p.carries_expect_closer (u := 0x29) rfl rfl) fun _ _ _ => carries_pure rfl

/-- The items up to the closing bracket go alike, and the bracket is left in both texts. -/
theorem carries_itemsUntil {closer : Text} {u : CodeUnit} (hcloser : closer = [u])
    (hu : u.isCloser = true) {v : CodeUnit}
    (hitem : Carries p.reports room (bs.length + 1) (p.inside (v :: bs)) item item
      (fun v v' => v' = F v) (p.inside (v :: bs))) :
    Carries p.reports room bs.length (p.inside (v :: bs)) (itemsUntil closer item) (itemsUntil closer item)
      (fun items items' => items' = items.map F) (p.inside bs) := by
  have hturn := turnsAdvance_itemsTurn hadvances closer
  rw [itemsUntil_eq]
  refine Carries.bracketed (Carries.bind p.carries_gap fun _ _ _ => Carries.bind
    (V := fun items items' => items' = items.map F) (B := p.inside bs) (fun c c' hc => ?_) ?_)
  · -- the turn that finds the closing bracket leaves it, all others stay inside
    refine Pairs.loop (I := fun items items' d d' => items' = items.map F ∧ p.inside (v :: bs) d d')
      hturn hturn ⟨rfl, hc⟩ ?_
    rintro items _ d d' ⟨rfl, hd⟩
    refine (p.pairs_consume_closer hcloser hu hd).bind ?_
    rintro closed _ e e' ⟨rfl, he⟩
    cases closed with
    | true => exact pairs_pure ⟨rfl, he⟩
    | false =>
      refine (hitem e e' he).bind ?_
      rintro found _ f f' ⟨rfl, hf⟩
      refine (p.carries_gap f f' hf).bind ?_
      rintro _ _ g g' ⟨-, hg⟩
      refine (p.carries_read (Reader.isInline_consume (by decide)) g g' hg).bind ?_
      rintro comma _ h h' ⟨rfl, hh⟩
      cases comma with
      | true =>
        refine (p.carries_gap h h' hh).bind ?_
        rintro _ _ i i' ⟨-, hi⟩
        exact pairs_pure ⟨rfl, hi⟩
      | false =>
        refine (p.carries_expect_closer hcloser hu h h' hh).bind ?_
        rintro _ _ i i' ⟨-, hi⟩
        exact pairs_pure ⟨rfl, hi⟩
  · rintro items _ rfl
    exact carries_pure (List.map_reverse).symm

end Lists

/-! ### Expressions -/

/-- The operators of the binary levels hold no unit that ends a token. -/
theorem isInner_binaryTable : ∀ level ≤ 2, ∀ row ∈ Spelling.binaryTable level,
    (∀ u ∈ row.text, u.isInner = true) ∧ ∀ u ∈ row.notBefore, u ∉ CodeUnit.tokenEnds := by
  decide

section Rules

variable {p : TokenPairing} {room : Nat} {bs : Text} (hrules : p.PlainCarry room)

include hrules

/-- Expressions go alike in any brackets. -/
theorem carries_expr :
    Carries p.reports room bs.length (p.inside bs) Expression.expr Expression.expr p.SameExpr (p.inside bs) :=
  fun c c' hc => hrules .expr bs c c' trivial trivial hc

/-- The arguments go alike inside their parentheses. -/
theorem carries_callArguments :
    Carries p.reports room bs.length (p.inside bs) Expression.callArguments Expression.callArguments
      (fun es es' => es' = es.map (Expr.mapText p.quoted)) (p.inside bs) := by
  have hadvances : Advances room Expression.expr := Rule.advances room .expr fun _ => trivial
  exact carries_parenthesized hadvances (carries_expr hrules)

/-! #### Values -/

/-- The parenthesis behind a name is next in both texts or in none. -/
theorem carries_identOrCall :
    Carries p.reports room bs.length (p.inside bs) Expression.identOrCall Expression.identOrCall p.SameExpr
      (p.inside bs) := by
  refine Carries.bind carries_name ?_
  rintro found _ rfl
  refine Carries.bind (carries_check (by decide)) ?_
  rintro opened _ rfl
  have hcall : Carries p.reports room bs.length (p.inside bs) (call (Rule.functionCall found))
      (call (Rule.functionCall found)) p.SameExpr (p.inside bs) :=
    fun c c' hc => hrules (.functionCall found) bs c c' trivial trivial hc
  exact carries_ite hcall (carries_pure rfl)

/-- Numbers hold no quotation, so they are equal. -/
theorem carries_number :
    Carries p.reports room bs.length (p.inside bs) Expression.number Expression.number p.SameExpr
      (p.inside bs) := by
  refine Carries.bind (p.carries_read Reader.isInline_float) ?_
  rintro found _ rfl
  cases found with
  | some literal => exact carries_pure rfl
  | none =>
    have hint : Carries p.reports room bs.length (p.inside bs) (call Rule.int) (call Rule.int) Eq (p.inside bs) :=
      fun c c' hc => hrules .int bs c c' trivial trivial hc
    refine Carries.bind hint ?_
    rintro found _ rfl
    cases found with
    | some literal => exact carries_pure rfl
    | none => exact p.carries_expected _

/-- The kind of value that starts with a unit. -/
theorem carries_valueFrom (u : CodeUnit) :
    Carries p.reports room bs.length (p.inside bs) (Expression.valueFrom u) (Expression.valueFrom u) p.SameExpr
      (p.inside bs) := by
  intro c c' hc
  unfold Expression.valueFrom
  -- the kinds of value in the order in which they are tried
  split_ifs
  · exact hrules .array bs c c' trivial trivial hc
  · exact hrules .object bs c c' trivial trivial hc
  · exact hrules .nodePath bs c c' trivial trivial hc
  · exact hrules .string bs c c' trivial trivial hc
  · exact carries_number hrules c c' hc
  · refine Carries.bind carries_constant ?_ c c' hc
    rintro found _ ⟨rfl, hsame⟩
    cases found with
    | some e => exact carries_pure (hsame e rfl)
    | none => exact carries_identOrCall hrules
  · exact p.carries_expected _ c c' hc

/--
The unit that decides about the kind of value is the same, or no value starts there in either text.
-/
theorem carries_value :
    Carries p.reports room bs.length (p.inside bs) Expression.value Expression.value p.SameExpr
      (p.inside bs) := by
  intro c c' hc
  have hstop : ∀ {t : Text}, (∀ u ∈ t.head?, u ∈ CodeUnit.tokenEnds) →
      t.head?.elim (expected "expression") Expression.valueFrom
        = (expected "expression" : Grammar Rule Expr) := by
    intro t ht
    cases t with
    | nil => rfl
    | cons u t => exact Expression.valueFrom_of_tokenEnd (ht u rfl)
  rw [Expression.value_eq]
  refine pairs_look_bind ?_
  -- the same unit is ahead, or a token has ended in both texts
  rcases (p.sameToken hc).head?_cases with hhead | ⟨h, h'⟩
  · rw [← hhead]
    cases c.ahead.head? with
    | none => exact p.carries_expected _ c c' hc
    | some u => exact carries_valueFrom hrules u c c' hc
  · rw [hstop h, hstop h']
    exact p.carries_expected _ c c' hc

omit hrules in
/-- Strings may differ, and one is quoted for the other. -/
theorem carries_stringValue :
    Carries p.reports room bs.length (p.inside bs) Expression.string Expression.string p.SameExpr
      (p.inside bs) := by
  refine Carries.bind (V := fun v v' => v' = p.quotedLiteral v) (B := p.inside bs) ?_ ?_
  · refine Carries.bind p.carries_string ?_
    rintro found _ rfl
    cases found with
    | none => exact p.carries_expected _
    | some literal => exact carries_pure rfl
  · rintro literal _ rfl
    exact carries_pure rfl

omit hrules in
/-- Paths may differ, and one is quoted for the other. -/
theorem carries_nodePathValue :
    Carries p.reports room bs.length (p.inside bs) Expression.nodePath Expression.nodePath p.SameExpr
      (p.inside bs) := by
  refine Carries.bind (V := fun v v' => v' = p.quoted v) (B := p.inside bs) ?_ ?_
  · refine Carries.bind p.carries_nodePath ?_
    rintro found _ rfl
    cases found with
    | none => exact p.carries_expected _
    | some path => exact carries_pure rfl
  · rintro path _ rfl
    exact carries_pure rfl

/-- Arrays go alike item by item. -/
theorem carries_array :
    Carries p.reports room bs.length (p.inside bs) Expression.array Expression.array p.SameExpr
      (p.inside bs) := by
  have hadvances : Advances room Expression.expr := Rule.advances room .expr fun _ => trivial
  refine Carries.bind (p.carries_expect_opener (u := 0x5B) rfl rfl) fun _ _ _ => ?_
  refine Carries.bind (carries_itemsUntil hadvances (u := 0x5D) rfl rfl (carries_expr hrules)) ?_
  rintro elements _ rfl
  exact carries_pure (by rw [SameExpr, Expr.mapText, Expr.mapTextList_eq_map])

/-- Objects go alike pair by pair. -/
theorem carries_object :
    Carries p.reports room bs.length (p.inside bs) Expression.object Expression.object p.SameExpr
      (p.inside bs) := by
  have hpair : Carries p.reports room (bs.length + 1) (p.inside (0x7B :: bs)) (call Rule.pair)
      (call Rule.pair) (fun v v' => v' = v.map (Expr.mapText p.quoted) (Expr.mapText p.quoted))
      (p.inside (0x7B :: bs)) := fun c c' hc => hrules .pair (0x7B :: bs) c c' trivial trivial hc
  have hadvances : Advances room (call Rule.pair) := Rule.advances room .pair fun _ => trivial
  refine Carries.bind (p.carries_expect_opener (u := 0x7B) rfl rfl) fun _ _ _ => ?_
  refine Carries.bind (carries_itemsUntil hadvances (u := 0x7D) rfl rfl hpair) ?_
  rintro pairs _ rfl
  exact carries_pure (by rw [SameExpr, Expr.mapText, Expr.mapTextPairs_eq_map])

/-- A key and its value go alike. -/
theorem carries_pair :
    Carries p.reports room bs.length (p.inside bs) Expression.pair Expression.pair
      (fun v v' => v' = v.map (Expr.mapText p.quoted) (Expr.mapText p.quoted)) (p.inside bs) := by
  refine Carries.bind (carries_expr hrules) ?_
  rintro key _ rfl
  refine Carries.bind p.carries_gap fun _ _ _ => ?_
  refine Carries.bind (carries_expect (by decide)) fun _ _ _ => ?_
  refine Carries.bind p.carries_gap fun _ _ _ => ?_
  refine Carries.bind (carries_expr hrules) ?_
  rintro value _ rfl
  exact carries_pure rfl

/-! #### Chains -/

/-- What brackets enclose goes alike inside them. -/
theorem carries_enclosed {opener closer : Text} {u v : CodeUnit} (hopener : opener = [u])
    (hcloser : closer = [v]) (hu : u.isOpener = true) (hv : v.isCloser = true) :
    Carries p.reports room bs.length (p.inside bs) (Expression.enclosed opener closer)
      (Expression.enclosed opener closer) p.SameExpr (p.inside bs) := by
  refine Carries.bind (p.carries_expect_opener hopener hu) fun _ _ _ => Carries.bracketed ?_
  refine Carries.bind p.carries_gap fun _ _ _ => Carries.bind (carries_expr hrules) ?_
  rintro inner _ rfl
  refine Carries.bind p.carries_gap fun _ _ _ => ?_
  exact Carries.bind (p.carries_expect_closer hcloser hv) fun _ _ _ => carries_pure rfl

theorem carries_primary :
    Carries p.reports room bs.length (p.inside bs) Expression.primary Expression.primary p.SameExpr
      (p.inside bs) := by
  refine Carries.bind (carries_check (by decide)) ?_
  rintro opened _ rfl
  exact carries_ite (fun c c' hc => hrules .parens bs c c' trivial trivial hc)
    fun c c' hc => hrules .value bs c c' trivial trivial hc

/-- A subscript is read in both texts or in none. -/
theorem carries_indexTurn (subscripted : Expr) :
    Carries p.reports room bs.length (p.inside bs) (Expression.indexTurn subscripted)
      (Expression.indexTurn (subscripted.mapText p.quoted)) (Next.Rel p.SameExpr) (p.inside bs) := by
  have hindex : Carries p.reports room bs.length (p.inside bs) (call Rule.index) (call Rule.index) p.SameExpr
      (p.inside bs) := fun c c' hc => hrules .index bs c c' trivial trivial hc
  refine Carries.bind (carries_check (by decide)) ?_
  rintro opened _ rfl
  refine carries_ite (Carries.bind hindex ?_) (carries_pure rfl)
  rintro index _ rfl
  exact carries_pure rfl

/-- What follows a value: subscripts, and perhaps a member with the rest of the chain. -/
theorem carries_chain (base : Expr) :
    Carries p.reports room bs.length (p.inside bs) (Expression.chain base)
      (Expression.chain (base.mapText p.quoted)) p.SameExpr (p.inside bs) := by
  have hturn := Expression.turnsAdvance_indexTurn room
  have hsubscripts : Carries p.reports room bs.length (p.inside bs) (Expression.subscripts base)
      (Expression.subscripts (base.mapText p.quoted)) p.SameExpr (p.inside bs) := by
    refine Carries.iterate hturn hturn rfl ?_
    rintro subscripted _ rfl
    exact carries_indexTurn hrules subscripted
  refine Carries.bind hsubscripts ?_
  rintro subscripted _ rfl
  refine Carries.bind (p.carries_read Reader.isInline_startsMember) ?_
  rintro found _ rfl
  refine carries_ite (Carries.bind (carries_identOrCall hrules) ?_) (carries_pure rfl)
  rintro name _ rfl
  -- the rest of the chain is a rule of its own, called with what was read so far
  have hrest : Carries p.reports room bs.length (p.inside bs) (call (Rule.member name))
      (call (Rule.member (name.mapText p.quoted))) p.SameExpr (p.inside bs) :=
    fun c c' hc => hrules (.member name) bs c c' trivial trivial hc
  refine Carries.bind hrest ?_
  rintro rest _ rfl
  exact carries_pure rfl

/-- A value goes alike, and so does the chain behind it. -/
theorem carries_postfixed :
    Carries p.reports room bs.length (p.inside bs) Expression.postfixed Expression.postfixed p.SameExpr
      (p.inside bs) := by
  refine Carries.bind (carries_primary hrules) ?_
  rintro base _ rfl
  exact carries_chain hrules base

/-! #### Operators -/

/-- An operator in front is read in both texts or in none. -/
theorem carries_unary :
    Carries p.reports room bs.length (p.inside bs) Expression.unary Expression.unary p.SameExpr
      (p.inside bs) := by
  refine Carries.bind (p.carries_read (Reader.isInline_operator (by decide))) ?_
  rintro found _ rfl
  cases found with
  | none => exact carries_postfixed hrules
  | some op =>
    exact Carries.bind p.carries_gap fun _ _ _ => fun c c' hc => hrules (.unary op) bs c c' trivial trivial hc

omit hrules in
/-- An operator behind the left operand is read in both texts or in none. -/
theorem carries_binaryTurn {level : Nat} (hlevel : level ≤ 2)
    (hoperand : Carries p.reports room bs.length (p.inside bs) (Expression.atLevel (level + 1))
      (Expression.atLevel (level + 1)) p.SameExpr (p.inside bs)) (left : Expr) :
    Carries p.reports room bs.length (p.inside bs) (Expression.binaryTurn level left)
      (Expression.binaryTurn level (left.mapText p.quoted)) (Next.Rel p.SameExpr) (p.inside bs) := by
  have hop : Carries p.reports room bs.length (p.inside bs)
      (do gap; (read (Reader.operator (Spelling.binaryTable level)) : Grammar Rule (Option BinaryOp)))
      (do gap; read (Reader.operator (Spelling.binaryTable level))) (fun v v' => v' = v.map id)
      (p.inside bs) := by
    refine Carries.bind p.carries_gap fun _ _ _ => ?_
    have hinline := Reader.isInline_operator (isInner_binaryTable level hlevel)
    exact (p.carries_read hinline).mono (fun v v' hv => by rw [hv, Option.map_id, id])
      fun _ _ hd => hd
  -- in front of an operator the gap is read only if the operator follows
  refine Carries.bind hop.optional ?_
  rintro found _ rfl
  rw [Option.map_id, id]
  cases found with
  | none => exact carries_pure rfl
  | some op =>
    refine Carries.bind p.carries_gap fun _ _ _ => Carries.bind hoperand ?_
    rintro right _ rfl
    exact carries_pure rfl

/-- Each level reads its operands by the next one. -/
theorem carries_atLevel {level : Nat} (hlevel : level ≤ 3) :
    Carries p.reports room bs.length (p.inside bs) (Expression.atLevel level) (Expression.atLevel level)
      p.SameExpr (p.inside bs) := by
  induction hlevel using Nat.decreasingInduction with
  | self => exact carries_unary hrules
  | of_succ level hlt ih =>
    have hbinary : level ≤ 2 := Nat.le_of_lt_succ hlt
    have hturn := Expression.turnsAdvance_binaryTurn room level
    rw [Expression.atLevel_eq hbinary]
    refine Carries.bind ih ?_
    rintro first _ rfl
    refine Carries.iterate hturn hturn rfl ?_
    rintro left _ rfl
    exact carries_binaryTurn hbinary ih left

end Rules

end TokenPairing

end GDScript
