import GDScript.Proofs.Pairing.Reading

/-!
# Statements in two texts

The rules that read blocks go alike in both texts of a pairing (`Pairing.BlockCarry`): the other text
is read by a rule for lines that are indented as they are there, what is found is the same apart from
quotations and places, and where the one text is left, the other one is too. Branches and cases are
sought behind the end of a line, in lines that stand for each other.

Where the first text ends, a block may take comments that only the other text has. From then on what
is found there does not matter any more (`Pairing.Spent`): both runs find nothing that they go on with,
and end.
-/

namespace GDScript

open Grammar

/-! ### Where both texts have nothing to go on with -/

/-- Runs that finish for sure go alike, where it does not matter what they note. -/
theorem Grammar.pairs_of_stays {R : Type → Type} [RuleSet R] {α : Type} {r : Reports} {room n : Nat}
    {g g' : Grammar R α} {c c' : Cursor} {P P' : α → Cursor → Prop}
    {Q : α → α → Cursor → Cursor → Prop} (hjournal : ∀ j j', r.journal j j') (h : Stays room g c P)
    (h' : Stays room g' c' P') (hQ : ∀ v v' d d', P v d → P' v' d' → Q v v' d d') :
    Pairs r room n g g' c c' Q := by
  intro s s' j j' _ _ _
  have hmeets := h j s
  have hmeets' := h' j' s'
  generalize run room g s c j = o, run room g' s' c' j' = o' at hmeets hmeets' ⊢
  cases o with
  | failed failure i => exact hmeets.elim
  | finished v d i =>
    cases o' with
    | failed failure' i' => exact hmeets'.elim
    | finished v' d' i' => exact .finished (hQ v v' d d' hmeets hmeets') (hjournal i i')

namespace Cursor.IsQuiet

variable {fresh : Prop} {c : Cursor} {indent : Nat}

/-- The next line of code is not one of a block within another one. -/
theorem indentation_ne (h : c.IsQuiet fresh) (hindent : 0 < indent) :
    c.ahead.nextCode.indentation ≠ indent := by
  rcases h.isForeign with hnil | ⟨hzero, -⟩
  · rw [hnil]
    exact Nat.ne_of_lt hindent
  · rw [hzero]
    exact Nat.ne_of_lt hindent

/-- Nor does it go on with an `if`. -/
theorem startsWord_eq_false (h : c.IsQuiet fresh) (hindent : 0 < indent ∨ fresh) {word : Text}
    (hword : word = "elif" ∨ word = "else") (hwidth : c.ahead.nextCode.indentation = indent) :
    Text.startsWord word (c.ahead.nextCode.drop indent) = false := by
  rcases hindent with hpos | hfresh
  · exact absurd hwidth (h.indentation_ne hpos)
  · rcases h.isForeign with hnil | ⟨hzero, hnot⟩
    · rw [hnil, List.drop_nil]
      rcases hword with rfl | rfl <;> rfl
    · rw [← hwidth, hzero, List.drop_zero]
      rcases hword with rfl | rfl
      · exact (hnot hfresh).1
      · exact (hnot hfresh).2

end Cursor.IsQuiet

namespace Statement

/-- The end of a header line, behind the gap. -/
def openingLine (header : Nat) : Grammar Rule Nat := do
  let _ ← read Reader.comment
  if ← read Reader.atLineEnd then
    let _ ← read Reader.lineBreak
    read (Reader.bodyIndent header)
  else expected "newline"

theorem blockOpening_eq (header : Nat) :
    blockOpening header = skipSpaces >>= fun _ => openingLine header := rfl

/-- What a header governs is measured at the next line of code. -/
theorem yields_openingLine {room : Nat} (header : Nat) (c : Cursor) :
    Yields room (openingLine header) c fun width c' =>
      (c.ahead.atLineEnd = true ∨ c.ahead.head? = some CodeUnit.hash) ∧
        c'.ahead.nextCode ≠ [] ∧ c'.ahead.nextCode.indentation = width := by
  refine Yields.bind (P := fun _ c₁ => c.ahead.head? = some CodeUnit.hash ∨ c₁ = c)
    (yields_read fun found n hread => ?_) fun _ c₁ hc₁ => yields_look_bind ?_
  · -- without a comment the reader stays at the line end
    by_cases hhash : c.ahead.Avoids (· == CodeUnit.hash)
    · rw [Reader.comment_eq_none hhash] at hread
      cases hread
      exact .inr rfl
    · refine .inl ?_
      rw [Text.Avoids, Bool.not_eq_false, Option.any_eq_true] at hhash
      obtain ⟨u, hu, hhash⟩ := hhash
      rw [hu, beq_iff_eq.mp hhash]
  · split
    · next hended =>
      refine (yields_reaches room _ c₁).bind fun _ c₂ _ => yields_read fun width n hread => ?_
      rw [Reader.bodyIndent, ← Text.nextCode] at hread
      split_ifs at hread with hnil hlt
      cases hread
      refine ⟨?_, fun h => hnil (List.isEmpty_iff.mpr h), rfl⟩
      rcases hc₁ with hhash | rfl
      · exact .inr hhash
      · exact .inl hended
    · exact yields_expected

theorem yields_blockOpening_ahead {room : Nat} (header : Nat) (c : Cursor) :
    Yields room (blockOpening header) c fun width c' =>
      c'.ahead.nextCode ≠ [] ∧ c'.ahead.nextCode.indentation = width :=
  (yields_reaches room _ c).bind fun _ c₁ _ =>
    (yields_openingLine header c₁).mono fun _ _ h => h.2

/-- The branches of an `if`, behind its word. -/
def branches (indent : Nat) : Grammar Rule Stmt := do
  let branch ← call (.condition indent)
  let elifs ← iterate (elifTurn indent) []
  let otherwise ← elseBranch indent
  return .ifStmt branch elifs.reverse otherwise

end Statement

/-- Where a word is not next, it is not read. -/
theorem yields_expectKeyword_of_eq_false {room : Nat} {c : Cursor} {word : Text}
    (h : Text.startsWord word c.ahead = false) :
    Yields room (expectKeyword word : Grammar Rule Unit) c fun _ _ => False := by
  refine yields_expectKeyword.mono fun _ _ hword => ?_
  rw [h] at hword
  exact Bool.false_ne_true hword

/-! ### Branches that are the same -/

namespace TokenPairing

variable {p : TokenPairing} {branch branch' : Condition} {found found' : List Condition}

theorem SameCondition.cons (h : p.SameCondition branch branch')
    (hfound : p.SameConditions found found') :
    p.SameConditions (branch :: found) (branch' :: found') := by
  rw [SameConditions, List.map_cons, List.map_cons, h, hfound]

theorem SameConditions.reverse (h : p.SameConditions found found') :
    found'.reverse.map (Condition.map id p.view')
      = found.reverse.map (Condition.map p.quoted p.view) := by
  rw [List.map_reverse, List.map_reverse, h]

theorem sameStmt_ifStmt {otherwise otherwise' : Option Block} (h : p.SameCondition branch branch')
    (hfound : p.SameConditions found found') (hbody : Option.Rel p.SameBlock otherwise otherwise') :
    p.SameStmt (.ifStmt branch found.reverse otherwise)
      (.ifStmt branch' found'.reverse otherwise') := by
  have hotherwise : otherwise'.map (Block.map id p.view')
      = otherwise.map (Block.map p.quoted p.view) := by
    cases hbody with
    | none => rfl
    | some h => exact congrArg some h
  rw [SameStmt, Stmt.map_ifStmt, Stmt.map_ifStmt, h, hfound.reverse, hotherwise]

theorem SameConditions.isEmpty (h : p.SameConditions found found') :
    found'.isEmpty = found.isEmpty := by
  have hlength := congrArg List.isEmpty h
  rwa [List.isEmpty_map, List.isEmpty_map] at hlength

end TokenPairing

namespace Pairing

variable (p : Pairing)

/-! ### What is said of the rules -/

/-- The rule by which the other text is read. -/
def blockRule : {α : Type} → Rule α → Rule α
  -- every level a rule is called with is a width of the text
  | _, .block level required => .block (p.width level) required
  | _, .indentedBlock header => .indentedBlock (p.width header)
  | _, .line indent => .line (p.width indent)
  | _, .decl indent => .decl (p.width indent)
  | _, .functionDecl indent => .functionDecl (p.width indent)
  | _, .classDecl indent => .classDecl (p.width indent)
  | _, .stmt indent => .stmt (p.width indent)
  | _, .ifStmt indent => .ifStmt (p.width indent)
  | _, .elifBranch indent => .elifBranch (p.width indent)
  | _, .elseBranch indent => .elseBranch (p.width indent)
  | _, .whileStmt indent => .whileStmt (p.width indent)
  | _, .forStmt indent => .forStmt (p.width indent)
  | _, .matchStmt indent => .matchStmt (p.width indent)
  | _, .matchCase indent => .matchCase (p.width indent)
  | _, .condition indent => .condition (p.width indent)
  | _, rule => rule

theorem label_blockRule {α : Type} (rule : Rule α) : (p.blockRule rule).label = rule.label := by
  cases rule <;> rfl

/-- A line has ended in both texts. -/
def Ended (c c' : Cursor) : Prop := p.inside [] c c' ∧ c.ahead.atLineEnd = true

/-- The other text has been read further than the first one goes, and nothing is gone on with. -/
structure Spent (c c' : Cursor) : Prop where
  journal (j j' : Journal) : p.reports.journal j j'
  gone : p.gone c'
  isQuiet : c.IsQuiet p.fresh
  isQuiet' : c'.IsQuiet p.fresh

/--
What stands behind the first text does not go on with an `if` that starts here: it is within a block,
or there is no such line, or no such `if`.
-/
def IsWhole (indent : Nat) (c : Cursor) : Prop :=
  (0 < indent ∨ p.fresh) ∨ Text.startsWord "if" c.ahead = false

/-- Where a rule that reads blocks is entered. -/
def Enters : {α : Type} → Rule α → Cursor → Cursor → Prop
  | _, .block level _, c, c' => 0 < level ∧ p.between c c' ∧ c.ahead.nextCode ≠ []
  | _, .line indent, c, c' => (0 < indent ∨ p.fresh) ∧ p.inside [] c c'
  | _, .stmt indent, c, c' | _, .ifStmt indent, c, c' => p.IsWhole indent c ∧ p.inside [] c c'
  | _, .indentedBlock _, c, c' | _, .decl _, c, c' | _, .functionDecl _, c, c'
  | _, .classDecl _, c, c' | _, .elifBranch _, c, c' | _, .elseBranch _, c, c'
  | _, .whileStmt _, c, c' | _, .forStmt _, c, c' | _, .matchStmt _, c, c'
  | _, .matchCase _, c, c' | _, .condition _, c, c' => p.inside [] c c'
  | _, _, _, _ => False

/-- Where a rule that has found something leaves the texts. -/
def Leaves : {α : Type} → Rule α → α → Cursor → Cursor → Prop
  | _, .block _ _, lines, c, c' => p.between c c' ∧ (lines ≠ [] → p.Ended c c')
  | _, .decl _, _, c, c' | _, .stmt _, _, c, c' => p.inside [] c c'
  | _, _, _, c, c' => p.Ended c c'

/-- What is found goes together, and so do the ends, as long as it matters. -/
def Agrees {α : Type} (V : α → α → Prop) (B : Cursor → Cursor → Prop) (v v' : α) (c c' : Cursor) :
    Prop :=
  V v v' ∧ B c c' ∨ p.Spent c c'

/-- The rules that read blocks go alike in both texts. -/
def BlockCarry (room : Nat) : Prop :=
  ∀ {α : Type} (rule : Rule α) (c c' : Cursor), p.Enters rule c c' →
    Pairs p.reports room 0 (call rule) (call (p.blockRule rule)) c c' fun v v' d d' =>
      p.Found rule v v' ∧ p.Leaves rule v d d' ∨ p.Spent d d'

variable {p} {room n : Nat} {c c' : Cursor}

theorem Ended.inside (h : p.Ended c c') : p.inside [] c c' := h.1

theorem Ended.between (h : p.Ended c c') : p.between c c' := p.between_of_inside h.1 h.2

/-- What the one text goes on with goes together with what the other one goes on with. -/
theorem pairs_agrees_bind {α β : Type} {g g' : Grammar Rule α} {f f' : α → Grammar Rule β}
    {V : α → α → Prop} {W : β → β → Prop} {B C : Cursor → Cursor → Prop}
    (hg : Pairs p.reports room n g g' c c' (p.Agrees V B))
    (hf : ∀ v v' d d', V v v' → B d d' → Pairs p.reports room n (f v) (f' v') d d' (p.Agrees W C))
    (hspent : ∀ v v' d d', p.Spent d d' →
      Pairs p.reports room n (f v) (f' v') d d' fun _ _ e e' => p.Spent e e') :
    Pairs p.reports room n (g >>= f) (g' >>= f') c c' (p.Agrees W C) := by
  refine hg.bind fun v v' d d' hv => ?_
  rcases hv with ⟨hv, hd⟩ | hd
  · exact hf v v' d d' hv hd
  · exact (hspent v v' d d' hd).mono fun _ _ _ _ he => .inr he

theorem pairs_inside_of_ended {α : Type} {g g' : Grammar Rule α} {V : α → α → Prop}
    (h : Pairs p.reports room n g g' c c' (p.Agrees V p.Ended)) :
    Pairs p.reports room n g g' c c' (p.Agrees V (p.inside [])) :=
  h.mono fun _ _ _ _ hv => hv.imp_left fun hv => ⟨hv.1, hv.2.inside⟩

/-! ### The ends of headers -/

/-- The end of a header line, and the indentation of what the header governs. -/
theorem carries_blockOpening (header : Nat) :
    Carries p.reports room n (p.inside []) (Statement.blockOpening header)
      (Statement.blockOpening (p.width header)) (fun w w' => w' = p.width w ∧ 0 < w) p.between := by
  refine Carries.bind p.carries_skipSpaces fun _ _ _ => Carries.bind p.carries_comment ?_
  rintro comment _ rfl c c' hc
  -- the end of the line is needed where the line break is read, so both cursors are kept
  refine pairs_look_bind ?_
  rw [(p.sameStart hc).atLineEnd]
  split
  · next hended =>
    exact (p.carries_lineBreak c c' ⟨hc, hended⟩).bind fun _ _ d d' hd =>
      p.carries_bodyIndent header d d' hd.2
  · exact p.carries_expected _ c c' hc

/-! ### Branches that are sought -/

/-- No further branch is found behind the first text, in a block or where none stands there. -/
theorem seekContinuation_eq_false {indent : Nat} (hindent : 0 < indent ∨ p.fresh) {word : Text}
    (hword : word = "elif" ∨ word = "else") (hc : p.between c c') (hended : c.ahead.nextCode = []) :
    Statement.seekContinuation (p.width indent) word c'.ahead = .took false 0 := by
  have hnil : Text.startsWord word [] = false := by rcases hword with rfl | rfl <;> decide
  have hother : ∀ t : Text, Text.startsWord "elif" t = false → Text.startsWord "else" t = false →
      Text.startsWord word t = false := by
    intro t helif helse
    rcases hword with rfl | rfl
    · exact helif
    · exact helse
  exact p.seekLine_eq_false hnil (hindent.imp_right fun hfresh => ⟨hfresh, hother⟩) hc hended

/-- A further branch is sought behind the end of a line. -/
theorem pairs_seekContinuation {α : Type} {indent : Nat} {word : Text}
    (hword : word = "elif" ∨ word = "else")
    (hends : c.ahead.nextCode = [] →
      Statement.seekContinuation (p.width indent) word c'.ahead = .took false 0)
    {g g' : Grammar Rule α} {S : α → α → Cursor → Cursor → Prop}
    (hg : ∀ d d', p.inside [] d d' → Pairs p.reports room n g g' d d' S) (hc : p.Ended c c') :
    Pairs p.reports room n
      (do
        if ← read (Statement.seekContinuation indent word) then
          let found ← g
          return some found
        else return none)
      (do
        if ← read (Statement.seekContinuation (p.width indent) word) then
          let found ← g'
          return some found
        else return none) c c' fun found found' d d' =>
      (found = none ∧ found' = none ∧ p.Ended d d') ∨
        ∃ v v', found = some v ∧ found' = some v' ∧ S v v' d d' := by
  have hline : ∀ u ∈ word, u ∉ CodeUnit.tokenEnds := by rcases hword with rfl | rfl <;> decide
  have hnil : Text.startsWord word [] = false := by rcases hword with rfl | rfl <;> decide
  -- both runs find the word, or none does and the cursors stay where they are
  refine (p.pairs_seekLine (fun _ _ h => h.startsWord hline) hnil hends hc.between).bind ?_
  rintro sought _ d d' ⟨rfl, hd⟩
  cases sought with
  | false =>
    obtain ⟨rfl, rfl⟩ : d = c ∧ d' = c' := by simpa using hd
    exact pairs_pure (.inl ⟨rfl, rfl, hc⟩)
  | true =>
    refine (hg d d' (by simpa using hd)).bind fun found found' e e' he => ?_
    exact pairs_pure (.inr ⟨found, found', rfl, rfl, he⟩)

section Rules

variable (hrules : p.BlockCarry room)

include hrules

/-! ### Conditions -/

/-- An expression, a colon and the block that they govern. -/
theorem pairs_condition (indent : Nat) (hc : p.inside [] c c') :
    Pairs p.reports room 0 (Statement.condition indent) (Statement.condition (p.width indent)) c c'
      (p.Agrees p.SameCondition p.Ended) := by
  refine TokenPairing.relates_condition (p.plainCarry room) (fun _ _ _ _ => .failed)
    (fun test d d' hd => (hrules (.indentedBlock indent) d d' hd).bind ?_) hc
  rintro body body' e e' hbody
  refine pairs_pure (hbody.imp_left fun h => ⟨?_, h.2⟩)
  have hsame : p.SameBlock body body' := h.1
  rw [TokenPairing.SameCondition, Condition.map_mk, Condition.map_mk, Expr.mapText_id, hsame]

theorem pairs_call_condition (indent : Nat) (hc : p.inside [] c c') :
    Pairs p.reports room 0 (call (Rule.condition indent)) (call (Rule.condition (p.width indent)))
      c c' (p.Agrees p.SameCondition p.Ended) :=
  hrules (.condition indent) c c' hc

/-! ### Branches -/

theorem pairs_elifBody (indent : Nat) (hc : p.inside [] c c') :
    Pairs p.reports room 0 (Statement.elifBody indent) (Statement.elifBody (p.width indent)) c c'
      (p.Agrees p.SameCondition p.Ended) :=
  (TokenPairing.carries_expectKeyword (by decide) c c' hc).bind fun _ _ _ _ hd =>
    pairs_call_condition hrules indent hd.2

theorem pairs_elseBody (indent : Nat) (hc : p.inside [] c c') :
    Pairs p.reports room 0 (Statement.elseBody indent) (Statement.elseBody (p.width indent)) c c'
      (p.Agrees p.SameBlock p.Ended) := by
  refine (TokenPairing.carries_expectKeyword (by decide) c c' hc).bind fun _ _ c c' hc => ?_
  refine (p.carries_skipSpaces c c' hc.2).bind fun _ _ c c' hc => ?_
  refine (TokenPairing.carries_expect (by decide) c c' hc.2).bind fun _ _ c c' hc => ?_
  exact hrules (.indentedBlock indent) c c' hc.2

omit hrules in
/-- Where nothing is gone on with there are no further branches. -/
theorem pairs_elifTurn_spent {indent : Nat} (hindent : 0 < indent ∨ p.fresh)
    (found found' : List Condition) (h : p.Spent c c') :
    Pairs p.reports room 0 (Statement.elifTurn indent found)
      (Statement.elifTurn (p.width indent) found') c c'
      (Next.Pairs (fun _ _ => p.Spent) fun _ _ => p.Spent) := by
  refine pairs_of_stays h.journal
    (Statement.stays_elifTurn found (h.isQuiet.startsWord_eq_false hindent (.inl rfl)))
    (Statement.stays_elifTurn found' (h.isQuiet'.startsWord_eq_false
      (hindent.imp_left p.width_pos) (.inl rfl))) ?_
  rintro _ _ _ _ ⟨rfl, rfl⟩ ⟨rfl, rfl⟩
  exact h

theorem pairs_elifTurn {indent : Nat} {found found' : List Condition}
    (hends : c.ahead.nextCode = [] →
      Statement.seekContinuation (p.width indent) "elif" c'.ahead = .took false 0)
    (hfound : p.SameConditions found found') (hc : p.Ended c c') :
    Pairs p.reports room 0 (Statement.elifTurn indent found)
      (Statement.elifTurn (p.width indent) found') c c'
      (Next.Pairs (p.Agrees p.SameConditions p.Ended) (p.Agrees p.SameConditions p.Ended)) := by
  refine Pairs.bind (pairs_seekContinuation (.inl rfl) hends
    (fun d d' hd => hrules (.elifBranch indent) d d' hd) hc) ?_
  rintro _ _ d d' (⟨rfl, rfl, hd⟩ | ⟨branch, branch', rfl, rfl, hbranch⟩)
  · exact pairs_pure (.inl ⟨hfound, hd⟩)
  · exact pairs_pure (hbranch.imp_left fun h => ⟨TokenPairing.SameCondition.cons h.1 hfound, h.2⟩)

theorem pairs_elifTurns {indent : Nat} (hindent : 0 < indent ∨ p.fresh) (hc : p.Ended c c') :
    Pairs p.reports room 0 (iterate (Statement.elifTurn indent) [])
      (iterate (Statement.elifTurn (p.width indent)) []) c c'
      (p.Agrees p.SameConditions p.Ended) := by
  have hnil : p.Agrees p.SameConditions p.Ended [] [] c c' := .inl ⟨rfl, hc⟩
  refine Pairs.loop (Statement.turnsAdvance_elifTurn room indent)
    (Statement.turnsAdvance_elifTurn room (p.width indent)) hnil ?_
  rintro found found' d d' (⟨hfound, hd⟩ | hspent)
  · exact pairs_elifTurn hrules (seekContinuation_eq_false hindent (.inl rfl) hd.between) hfound hd
  · refine (pairs_elifTurn_spent hindent found found' hspent).mono ?_
    rintro (_ | _) (_ | _) e e' he
    · exact .inr he
    · exact he
    · exact he
    · exact .inr he

omit hrules in
/-- Nor is there a last branch. -/
theorem pairs_elseBranch_spent {indent : Nat} (hindent : 0 < indent ∨ p.fresh) (h : p.Spent c c') :
    Pairs p.reports room 0 (Statement.elseBranch indent) (Statement.elseBranch (p.width indent)) c c'
      fun _ _ => p.Spent := by
  refine pairs_of_stays h.journal
    (Statement.stays_elseBranch (h.isQuiet.startsWord_eq_false hindent (.inr rfl)))
    (Statement.stays_elseBranch (h.isQuiet'.startsWord_eq_false
      (hindent.imp_left p.width_pos) (.inr rfl))) ?_
  rintro _ _ _ _ ⟨-, rfl⟩ ⟨-, rfl⟩
  exact h

theorem pairs_elseBranch {indent : Nat} (hends : c.ahead.nextCode = [] →
      Statement.seekContinuation (p.width indent) "else" c'.ahead = .took false 0)
    (hc : p.Ended c c') :
    Pairs p.reports room 0 (Statement.elseBranch indent) (Statement.elseBranch (p.width indent)) c c'
      (p.Agrees (Option.Rel p.SameBlock) p.Ended) := by
  refine (pairs_seekContinuation (.inr rfl) hends
    (fun d d' hd => hrules (.elseBranch indent) d d' hd) hc).mono ?_
  rintro _ _ d d' (⟨rfl, rfl, hd⟩ | ⟨body, body', rfl, rfl, hbody⟩)
  · exact .inl ⟨.none, hd⟩
  · exact hbody.imp_left fun h => ⟨.some h.1, h.2⟩

/-- The branches of an `if`, behind its word. -/
theorem pairs_branches {indent : Nat} (hindent : 0 < indent ∨ p.fresh) (hc : p.inside [] c c') :
    Pairs p.reports room 0 (Statement.branches indent) (Statement.branches (p.width indent)) c c'
      (p.Agrees p.SameStmt p.Ended) := by
  have hturn := Statement.turnsAdvance_elifTurn room indent
  have hturn' := Statement.turnsAdvance_elifTurn room (p.width indent)
  -- where nothing is gone on with, neither are the branches
  have helse : ∀ {f f' : Option Block → Stmt} {d d' : Cursor}, p.Spent d d' →
      Pairs p.reports room 0 (do let body ← Statement.elseBranch indent; return f body)
        (do let body ← Statement.elseBranch (p.width indent); return f' body) d d'
        fun _ _ => p.Spent := fun hd =>
    (pairs_elseBranch_spent hindent hd).bind fun _ _ _ _ he => pairs_pure he
  refine pairs_agrees_bind (pairs_call_condition hrules indent hc)
    (fun branch branch' d d' hbranch hd => ?_) fun _ _ d d' hd =>
      (Pairs.loop (I := fun _ _ => p.Spent) hturn hturn' hd fun _ _ _ _ h =>
        pairs_elifTurn_spent hindent _ _ h).bind fun _ _ _ _ he => helse he
  refine pairs_agrees_bind (pairs_elifTurns hrules hindent hd)
    (fun elifs elifs' e e' helifs he => ?_) fun _ _ _ _ he => helse he
  have hends := seekContinuation_eq_false hindent (.inr rfl) he.between
  exact pairs_agrees_bind (pairs_elseBranch hrules hends he)
    (fun body body' f f' hbody hf =>
      pairs_pure (.inl ⟨TokenPairing.sameStmt_ifStmt hbranch helifs hbody, hf⟩))
    fun _ _ _ _ hf => pairs_pure hf

theorem pairs_ifStmt {indent : Nat} (hwhole : p.IsWhole indent c) (hc : p.inside [] c c') :
    Pairs p.reports room 0 (Statement.ifStmt indent) (Statement.ifStmt (p.width indent)) c c'
      (p.Agrees p.SameStmt p.Ended) := by
  have hword : Pairs p.reports room 0 (expectKeyword "if") (expectKeyword "if") c c'
      fun _ _ d d' => p.inside [] d d' :=
    (TokenPairing.carries_expectKeyword (by decide) c c' hc).mono fun _ _ _ _ hd => hd.2
  rcases hwhole with hindent | hnot
  · exact hword.bind fun _ _ d d' hd => pairs_branches hrules hindent hd
  · -- both runs fail at the word
    refine (hword.and_yields (yields_expectKeyword_of_eq_false hnot) (yields_reaches room _ c')).bind ?_
    exact fun _ _ _ _ hd => hd.2.1.elim

/-! ### Loops -/

theorem pairs_whileStmt (indent : Nat) (hc : p.inside [] c c') :
    Pairs p.reports room 0 (Statement.whileStmt indent) (Statement.whileStmt (p.width indent)) c c'
      (p.Agrees p.SameStmt p.Ended) := by
  refine (TokenPairing.carries_expectKeyword (by decide) c c' hc).bind fun _ _ c c' hc => ?_
  refine pairs_agrees_bind (pairs_call_condition hrules indent hc.2)
    (fun test test' d d' htest hd => pairs_pure (.inl ⟨?_, hd⟩))
      fun _ _ _ _ hd => pairs_pure hd
  rw [TokenPairing.SameStmt, Stmt.map, Stmt.map, htest]

theorem pairs_forStmt (indent : Nat) (hc : p.inside [] c c') :
    Pairs p.reports room 0 (Statement.forStmt indent) (Statement.forStmt (p.width indent)) c c'
      (p.Agrees p.SameStmt p.Ended) := by
  refine (TokenPairing.carries_expectKeyword (by decide) c c' hc).bind fun _ _ c c' hc => ?_
  refine pairs_agrees_bind (pairs_call_condition hrules indent hc.2)
    (fun test test' d d' htest hd => pairs_pure (.inl ⟨?_, hd⟩))
      fun _ _ _ _ hd => pairs_pure hd
  rw [TokenPairing.SameStmt, Stmt.map, Stmt.map, htest]

/-! ### Cases -/

omit hrules in
/-- The cases so far, and the end of the last one. -/
def CasesSoFar (p : Pairing) (found found' : List Condition) (c c' : Cursor) : Prop :=
  (p.SameConditions found found' ∧ p.between c c' ∧ (found ≠ [] → p.Ended c c')) ∨
    (p.Spent c c' ∧ found ≠ [] ∧ found' ≠ [])

theorem pairs_caseTurn {width : Nat} (hwidth : 0 < width) {found found' : List Condition}
    (h : p.CasesSoFar found found' c c') :
    Pairs p.reports room 0 (Statement.caseTurn width found)
      (Statement.caseTurn (p.width width) found') c c' (Next.Pairs p.CasesSoFar p.CasesSoFar) := by
  rcases h with ⟨hfound, hc, hended⟩ | ⟨hspent, hne, hne'⟩
  · have hsame : ∀ {t t' : Text}, t ≠ [] → t' ≠ [] → t.SameToken t' →
        (!t'.isEmpty) = !t.isEmpty := by
      intro t t' ht ht' _
      rw [List.isEmpty_eq_false_iff.mpr ht, List.isEmpty_eq_false_iff.mpr ht']
    refine (p.pairs_seekLine hsame rfl (p.seekLine_eq_false rfl (.inl hwidth) hc) hc).bind ?_
    rintro sought _ d d' ⟨rfl, hd⟩
    cases sought with
    | false =>
      obtain ⟨rfl, rfl⟩ : d = c ∧ d' = c' := by simpa using hd
      exact pairs_pure (.inl ⟨hfound, hc, hended⟩)
    | true =>
      have hd : p.inside [] d d' := by simpa using hd
      refine (hrules (.matchCase width) d d' hd).bind fun branch branch' e e' he => pairs_pure ?_
      rcases he with ⟨hbranch, he⟩ | he
      · exact .inl ⟨TokenPairing.SameCondition.cons hbranch hfound, Ended.between he, fun _ => he⟩
      · exact .inr ⟨he, List.cons_ne_nil _ _, List.cons_ne_nil _ _⟩
  · -- nothing is left on one side, so the turn finds no case on either
    refine pairs_of_stays hspent.journal
      (Statement.stays_caseTurn found (hspent.isQuiet.indentation_ne hwidth))
      (Statement.stays_caseTurn found' (hspent.isQuiet'.indentation_ne (p.width_pos hwidth))) ?_
    rintro _ _ _ _ ⟨rfl, rfl⟩ ⟨rfl, rfl⟩
    exact .inr ⟨hspent, hne, hne'⟩

theorem pairs_matchBody (indent : Nat) (subject : Expr) (hc : p.inside [] c c') :
    Pairs p.reports room 0 (Statement.matchBody indent subject)
      (Statement.matchBody (p.width indent) (subject.mapText p.quoted)) c c'
      (p.Agrees p.SameStmt p.Ended) := by
  refine (carries_blockOpening indent c c' hc).bind ?_
  rintro width _ c c' ⟨⟨rfl, hwidth⟩, hc⟩
  have hturn := Statement.turnsAdvance_caseTurn room width
  have hturn' := Statement.turnsAdvance_caseTurn room (p.width width)
  have hnil : p.CasesSoFar [] [] c c' := .inl ⟨rfl, hc, fun h => absurd rfl h⟩
  refine Pairs.bind (Q := p.CasesSoFar) (Pairs.loop hturn hturn' hnil
    fun _ _ _ _ h => pairs_caseTurn hrules hwidth h) ?_
  -- both ran through the same cases, or one of the two scripts was used up
  rintro cases cases' d d' (⟨hcases, hd, hended⟩ | ⟨hspent, hne, hne'⟩)
  · have hempty : cases'.isEmpty = cases.isEmpty := TokenPairing.SameConditions.isEmpty hcases
    rw [hempty]
    split
    · exact (p.carries_expected_between _ d d' hd).mono fun _ _ _ _ h => .inl h
    · -- the cursors are behind the last case, which has ended its line
      next hne =>
      refine pairs_pure (.inl ⟨?_, hended fun h => hne (List.isEmpty_iff.mpr h)⟩)
      rw [TokenPairing.SameStmt, Stmt.map_matchStmt, Stmt.map_matchStmt, Expr.mapText_id,
        TokenPairing.SameConditions.reverse hcases]
  · rw [List.isEmpty_eq_false_iff.mpr hne, List.isEmpty_eq_false_iff.mpr hne']
    exact pairs_pure (.inr hspent)

theorem pairs_matchStmt (indent : Nat) (hc : p.inside [] c c') :
    Pairs p.reports room 0 (Statement.matchStmt indent) (Statement.matchStmt (p.width indent)) c c'
      (p.Agrees p.SameStmt p.Ended) :=
  TokenPairing.relates_matchStmt (p.plainCarry room) (fun _ _ _ _ => .failed)
    (fun subject _ _ hd => pairs_matchBody hrules indent subject hd) hc

/-! ### Any statement -/

theorem pairs_stmt {indent : Nat} (hwhole : p.IsWhole indent c) (hc : p.inside [] c c') :
    Pairs p.reports room 0 (Statement.stmt indent) (Statement.stmt (p.width indent)) c c'
      (p.Agrees p.SameStmt (p.inside [])) := by
  have hplain : ∀ rule : Rule Stmt, rule.IsPlain → TokenPairing.Fits rule [] →
      Pairs p.reports room 0 (call rule) (call (p.rule rule)) c c' fun v v' d d' =>
        (p.Found rule v v' ∧ p.inside [] d d') ∨ p.Spent d d' := fun rule hrule hfits =>
    (p.plainCarry room rule [] c c' hrule hfits hc).mono fun _ _ _ _ h => .inl h
  refine pairs_choice (List.cons_ne_nil _ _) ?_
  exact .cons (pairs_inside_of_ended (hrules (.ifStmt indent) c c' ⟨hwhole, hc⟩)) <|
    .cons (pairs_inside_of_ended (hrules (.whileStmt indent) c c' hc)) <|
    .cons (pairs_inside_of_ended (hrules (.forStmt indent) c c' hc)) <|
    .cons (pairs_inside_of_ended (hrules (.matchStmt indent) c c' hc)) <|
    .cons (hplain .returnStmt trivial rfl) <|
    .cons (hplain .assignStmt trivial rfl) <| .cons (hplain .passStmt trivial trivial) .nil

/-! ### Declarations -/

theorem pairs_functionDecl (indent : Nat) (hc : p.inside [] c c') :
    Pairs p.reports room 0 (Declaration.functionDecl indent)
      (Declaration.functionDecl (p.width indent)) c c' (p.Agrees p.SameDecl p.Ended) := by
  refine TokenPairing.relates_functionDecl (p.plainCarry room) (fun _ _ _ _ => .failed)
    (fun head d d' hd => (hrules (.indentedBlock indent) d d' hd).bind ?_) hc
  rintro body body' e e' hbody
  refine pairs_pure (hbody.imp_left fun h => ⟨?_, h.2⟩)
  have hsame : p.SameBlock body body' := h.1
  rw [TokenPairing.SameDecl, Decl.map_functionDecl, Decl.map_functionDecl, hsame,
    FunctionHead.mapText_id]

theorem pairs_classDecl (indent : Nat) (hc : p.inside [] c c') :
    Pairs p.reports room 0 (Declaration.classDecl indent) (Declaration.classDecl (p.width indent))
      c c' (p.Agrees p.SameDecl p.Ended) := by
  refine TokenPairing.relates_classDecl (fun _ _ _ _ => .failed)
    (fun found base d d' hd => (hrules (.indentedBlock indent) d d' hd).bind ?_) hc
  rintro body body' e e' hbody
  refine pairs_pure (hbody.imp_left fun h => ⟨?_, h.2⟩)
  have hsame : p.SameBlock body body' := h.1
  rw [TokenPairing.SameDecl, Decl.map_classDecl, Decl.map_classDecl, hsame]

theorem pairs_decl (indent : Nat) (hc : p.inside [] c c') :
    Pairs p.reports room 0 (Declaration.decl indent) (Declaration.decl (p.width indent)) c c'
      (p.Agrees p.SameDecl (p.inside [])) := by
  have hplain : ∀ rule : Rule Decl, rule.IsPlain → TokenPairing.Fits rule [] →
      Pairs p.reports room 0 (call rule) (call (p.rule rule)) c c' fun v v' d d' =>
        (p.Found rule v v' ∧ p.inside [] d d') ∨ p.Spent d d' := fun rule hrule hfits =>
    (p.plainCarry room rule [] c c' hrule hfits hc).mono fun _ _ _ _ h => .inl h
  refine pairs_choice (List.cons_ne_nil _ _) ?_
  exact .cons (hplain .classNameDecl trivial rfl) <| .cons (hplain .extendsDecl trivial rfl) <|
    .cons (hplain .signalDecl trivial rfl) <| .cons (hplain .enumDecl trivial rfl) <|
    .cons (pairs_inside_of_ended (hrules (.classDecl indent) c c' hc)) <|
    .cons (pairs_inside_of_ended (hrules (.functionDecl indent) c c' hc)) <|
    .cons (hplain .constDecl trivial rfl) <| .cons (hplain .varDecl trivial rfl) .nil

end Rules

end Pairing

end GDScript
