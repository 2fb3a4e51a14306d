import GDScript.Proofs.Script.Declaration

/-!
# Items on one line

Assignments, returns and `pass`, and from these and the declarations every item that stands on a
part of one line (`Script.takesToGap_lineItem`). Such an item does not start with a word that goes
on with an `if` before it (`Text.StartsItem`).
-/

namespace GDScript

open Grammar
open Text (IsGap IsName EndsExpr)

namespace Statement

variable {room n : Nat} {s rest gap t : Text}

/-! ### Assignments -/

/-- A target ends before the sign of an assignment. -/
theorem endsExpr_sign {g : Text} (hg : IsGap false g) (op : AssignOp) (rest : Text) :
    EndsExpr false 4 (g ++ (op.sign ++ rest)) := by
  -- without a gap the sign itself ends the target: `/=` does not go on with a node path
  by_cases hne : g = []
  · subst hne
    exact {
      word := by cases op <;> rfl
      call := by cases op <;> rfl
      path := fun r hr => by
        cases op <;> first
          | exact absurd (List.cons.inj hr).1 (by decide)
          | (rw [← (List.cons.inj hr).2]; rfl)
      fraction := fun r hr => by
        cases op <;> exact absurd (List.cons.inj hr).1 (by decide)
      index := fun _ => by cases op <;> rfl
      member := fun _ => by cases op <;> rfl
      operator := fun k hk hl => absurd hl (by omega) }
  · refine endsExpr_gap hg ?_ (fun h => absurd h hne) fun k hk hl => absurd hl (by omega)
    cases op <;> rfl

/-- The sign of an assignment is found where `=` does not follow. -/
theorem exists_find?_assign (op : AssignOp) (ht : t.Avoids (· == 0x3D)) :
    ∃ row, Spelling.assign.find? (·.isAt (op.sign ++ t)) = some row ∧
      row.text = op.sign ∧ row.op = op := by
  cases t with
  | nil => cases op <;> exact ⟨_, rfl, rfl, rfl⟩
  | cons u t =>
    cases op with
    | set =>
      -- the sign `=` is the last one in the table, and only it depends on what follows
      have hat : (Spelling.signUnless "=" AssignOp.set "=").isAt (0x3D :: u :: t) = true := by
        change (true && true && !((u == 0x3D) || false)) = true
        rw [Text.avoids_cons.mp ht]
        rfl
      have hothers : List.find? (·.isAt (0x3D :: u :: t)) (Spelling.assign.take 5) = none :=
        Spelling.find?_eq_none_of_avoids (p := List.contains ("+-*/%" : Text)) (by decide) rfl
      refine ⟨Spelling.signUnless "=" .set "=", ?_, rfl, rfl⟩
      rw [show Spelling.assign = Spelling.assign.take 5 ++ [Spelling.signUnless "=" .set "="] from rfl,
        List.find?_append]
      refine (congrArg (Option.or · _) hothers).trans ?_
      rw [Option.none_or]
      exact List.find?_cons_of_pos hat
    | _ => exact ⟨_, rfl, rfl, rfl⟩

theorem takes_assignStmt {target value : Expr} {op : AssignOp} {g g' : Text}
    (htarget : target.Written room false 4 s) (hg : IsGap false g) (hg' : IsGap false g')
    (hvalue : value.Written room false 0 t) (hrest : EndsExpr false 0 rest) :
    Takes (room + 1) 0 assignStmt (s ++ (g ++ (op.sign ++ (g' ++ t)))) rest
      (· = .assignStmt target op value) := by
  have hset : (g' ++ t ++ rest).Avoids (· == 0x3D) := by
    rw [List.append_assoc]
    exact hg'.avoids_sign rfl (Phrase.avoids_of_written (by decide) hvalue)
  -- one level below the operators there is no sign that the target could go on with
  have hreads := Phrase.reads_of_written (by decide) htarget.succ
  obtain ⟨row, hfind, htext, hop⟩ := exists_find?_assign op hset
  rw [← htext] at hfind ⊢
  refine Takes.bind (hreads.takes (n := 0) rfl (by omega) (by omega) ?_) fun v hv => ?_
  · rw [htext]
    simp only [List.append_assoc]
    exact endsExpr_sign hg op _
  · refine Takes.bind (takes_skipSpaces hg ?_) fun _ _ => ?_
    · rw [htext, List.append_assoc]
      cases op <;> rfl
    · refine Takes.bind (takes_operator hfind) fun found hfound => ?_
      rw [hfound]
      refine Takes.bind (takes_skipSpaces hg' (hvalue.avoids_gap (k := false))) fun _ _ => ?_
      refine Takes.bind_done (hvalue.takes rfl hrest)
        fun w hw => ?_
      rw [hv, hw, hop]
      exact takes_pure rfl

/-! ### Returns -/

theorem endsItem_eq_false {p : CodeUnit → Bool} (h : t.StartsWith p)
    (hp : ∀ u ∈ ([0x0A, 0x0D, 0x23, 0x3B] : Text), p u = false) : endsItem t = false := by
  rw [← Bool.not_eq_true]
  intro hends
  have havoids : t.Avoids p := avoids_of_endsItem hends hp
  exact Bool.noConfusion (havoids.symm.trans h)

/-- Where an item ends there is no value, and the gap has been taken to see that. -/
theorem takes_returnStmt (hg : IsGap false gap) (ht : endsItem t = true) :
    Takes room n returnStmt ("return" ++ gap) t (· = .returnStmt none) := by
  refine Takes.bind (takes_expectKeyword (avoids_isIdentifierChar_of_endsItem hg ht)) fun _ _ => ?_
  have hspace : t.Avoids CodeUnit.isSpace := avoids_of_endsItem ht (by decide)
  refine Takes.bind_done (takes_skipSpaces hg hspace) fun _ _ => ?_
  refine Takes.look_bind (takes_look (P := (· = true)) ht) fun found hfound => ?_
  rw [hfound]
  exact takes_pure rfl

theorem takes_returnStmt_value {e : Expr} {g : Text} (hg : IsGap false g)
    (hword : (g ++ s).Avoids CodeUnit.isIdentifierChar) (he : e.Written room false 0 s)
    (hrest : EndsExpr false 0 rest) :
    Takes (room + 1) 0 returnStmt ("return" ++ (g ++ s)) rest (· = .returnStmt (some e)) := by
  have hends : endsItem (s ++ rest) = false :=
    endsItem_eq_false (he.starts.1.append rest) (by decide)
  have hne : g ++ s ≠ [] := List.append_ne_nil_of_right_ne_nil _ he.starts.1.ne_nil
  refine Takes.bind (takes_expectKeyword (hword.append hne)) fun _ _ => ?_
  refine Takes.bind (takes_skipSpaces hg (he.avoids_gap (k := false))) fun _ _ => ?_
  refine Takes.look_bind (takes_look (P := (· = false)) hends) fun found hfound => ?_
  rw [hfound]
  refine Takes.bind_done (he.takes rfl hrest) fun w hw => ?_
  rw [hw]
  exact takes_pure rfl

/-! ### Every statement on one line -/

/-- A statement without a block is read where an item ends behind it. -/
theorem takesToGap_stmt {st : Stmt} {indent : Nat} (h : st.Written room s) (hgap : IsGap false gap)
    (ht : endsItem t = true) :
    TakesToGap (room + 2) 0 (call (Rule.stmt indent)) s gap t fun v => v.bare = st.bare := by
  have hends : EndsExpr false 0 (gap ++ t) := endsExpr_of_endsItem hgap ht
  suffices hst : TakesToGap (room + 2) 0 (call (Rule.stmt indent)) s gap t (· = st) from
    hst.mono fun v hv => by rw [hv]
  cases h with
  | @assign room target value op s g g' u htarget hg hg' hvalue =>
    -- a target is no keyword, so no other statement is read at it
    have hopeners : ∀ w ∈ openers, w ∈ Declaration.words ++ words := by decide
    have hwords : ∀ w ∈ openers,
        Text.startsWord w (s ++ (g ++ (op.sign ++ (g' ++ u))) ++ (gap ++ t)) = false := by
      intro w hw
      simp only [List.append_assoc]
      exact htarget.startsWord_eq_false (hopeners w hw) (endsExpr_sign hg op _).word
    exact (takes_call (takes_stmt_assign hwords
      (takes_call (takes_assignStmt htarget hg hg' hvalue hends)))).toGap
  | «return» =>
    have hopens : Text.Opens "return" (("return" : Text) ++ gap ++ t) :=
      ⟨gap ++ t, List.append_assoc _ _ _, hends.word⟩
    exact (takes_call (takes_stmt (i := 4) rfl rfl hopens
      (takes_call (takes_returnStmt hgap ht)))).pastGap
  | @returnValue room g s e hg hword he =>
    have hne : g ++ s ≠ [] := List.append_ne_nil_of_right_ne_nil _ he.starts.1.ne_nil
    have hopens : Text.Opens "return" (("return" : Text) ++ (g ++ s) ++ (gap ++ t)) :=
      ⟨g ++ s ++ (gap ++ t), List.append_assoc _ _ _, hword.append hne⟩
    exact (takes_call (takes_stmt (i := 4) rfl rfl hopens
      (takes_call (takes_returnStmt_value hg hword he hends)))).toGap
  | pass => exact (takes_call (takes_stmt_pass hgap ht)).toGap

end Statement

/-! ### Items -/

namespace Text

/-- The text starts with an item, which is none of the further branches of an `if`. -/
structure StartsItem (t : Text) : Prop where
  startsCode : t.StartsCode
  not_branch : ∀ w ∈ (["elif", "else"] : List Text), startsWord w t = false

variable {word t : Text}

theorem Opens.startsWord_of_mem {ws : List Text} (h : Opens word t) (hword : IsName word)
    (hws : ∀ w ∈ ws, IsName w ∧ word ≠ w) : ∀ w ∈ ws, startsWord w t = false :=
  fun w hw => h.startsWord_eq_false hword (hws w hw).1 (hws w hw).2

/-- The words that open a statement, those of the further branches left out. -/
theorem Opens.startsItem_stmt (h : Opens word t)
    (hword : word ∈ (["if", "while", "for", "match", "return", "pass"] : List Text)) :
    StartsItem t ∧ ∀ w ∈ Declaration.words, startsWord w t = false := by
  have hwords : ∀ v ∈ (["if", "while", "for", "match", "return", "pass"] : List Text), IsName v ∧
      ∀ w ∈ ("elif" :: "else" :: Declaration.words : List Text), IsName w ∧ v ≠ w := by
    decide +kernel
  obtain ⟨hname, hother⟩ := hwords word hword
  have hall := h.startsWord_of_mem hname hother
  refine ⟨⟨h.startsCode hname, fun w hw => hall w ?_⟩, fun w hw => hall w ?_⟩
  · simp only [List.mem_cons, List.not_mem_nil, or_false] at hw ⊢
    rcases hw with rfl | rfl <;> simp
  · exact List.mem_cons_of_mem _ (List.mem_cons_of_mem _ hw)

theorem Opens.startsItem_decl (h : Opens word t) (hword : word ∈ Declaration.words) :
    StartsItem t := by
  have hwords : ∀ v ∈ Declaration.words, IsName v ∧
      ∀ w ∈ (["elif", "else"] : List Text), IsName w ∧ v ≠ w := by
    decide +kernel
  obtain ⟨hname, hother⟩ := hwords word hword
  exact ⟨h.startsCode hname, h.startsWord_of_mem hname hother⟩

end Text

open Text (StartsItem)

theorem Decl.Written.exists_opens {room : Nat} {d : Decl} {s : Text} (h : d.Written room s) :
    ∃ w ∈ Declaration.words, ∀ rest, Text.Opens w (s ++ rest) := by
  -- a variable may start with a modifier
  have hvar : ∀ {w : Text}, (w = "var" ∨ ∃ c, w = VarModifier.word c) → w ∈ Declaration.words := by
    rintro w (rfl | ⟨c, rfl⟩)
    · decide
    · cases c <;> decide
  cases h with
  | className hg hne =>
    exact ⟨_, by decide, Declaration.opens_append hg fun h => absurd h hne⟩
  | @extendsPath g literal hg hliteral =>
    refine ⟨_, by decide, Declaration.opens_append hg fun _ => ?_⟩
    cases hq : literal.quote <;> simp [StringLiteral.write, hq] <;> rfl
  | extendsName hg hne => exact ⟨_, by decide, Declaration.opens_append hg fun h => absurd h hne⟩
  | signal hg hne => exact ⟨_, by decide, Declaration.opens_append hg fun h => absurd h hne⟩
  | signalParams hg hne => exact ⟨_, by decide, Declaration.opens_append hg fun h => absurd h hne⟩
  | enum hg => exact ⟨_, by decide, Declaration.opens_append hg fun _ => rfl⟩
  | enumName hg hne => exact ⟨_, by decide, Declaration.opens_append hg fun h => absurd h hne⟩
  | const hg hne => exact ⟨_, by decide, Declaration.opens_append hg fun h => absurd h hne⟩
  | var hmodifier hg hne =>
    obtain ⟨w, hw, hopens⟩ := Declaration.opens_modified hmodifier
      (Declaration.opens_append hg fun h => absurd h hne)
    exact ⟨w, hvar hw, hopens⟩
  | varSetget hmodifier hg hne =>
    obtain ⟨w, hw, hopens⟩ := Declaration.opens_modified hmodifier
      (Declaration.opens_append hg fun h => absurd h hne)
    exact ⟨w, hvar hw, hopens⟩

/-- Where an expression stands at the start of a line, none of the words does. -/
theorem Expr.Written.startsItem {room level : Nat} {e : Expr} {s rest : Text}
    (h : e.Written room false level s) (hrest : rest.Avoids CodeUnit.isIdentifierChar) :
    StartsItem (s ++ rest) ∧ ∀ w ∈ Declaration.words, Text.startsWord w (s ++ rest) = false := by
  have hbranches : ∀ w ∈ (["elif", "else"] : List Text), w ∈ Declaration.words ++ Statement.words := by
    decide
  refine ⟨⟨(h.starts.1.append rest).startsCode, fun w hw => ?_⟩, fun w hw => ?_⟩
  · exact h.startsWord_eq_false (hbranches w hw) hrest
  · exact h.startsWord_eq_false (List.mem_append_left _ hw) hrest

theorem Stmt.Written.startsItem {room : Nat} {st : Stmt} {s rest : Text} (h : st.Written room s)
    (hrest : rest.Avoids CodeUnit.isIdentifierChar) :
    StartsItem (s ++ rest) ∧ ∀ w ∈ Declaration.words, Text.startsWord w (s ++ rest) = false := by
  cases h with
  | @assign room target value op s g g' t htarget hg hg' =>
    -- the first word of the target ends in front of the sign of assignment
    have hstop : (g ++ (op.sign ++ (g' ++ t)) ++ rest).Avoids CodeUnit.isIdentifierChar := by
      simp only [List.append_assoc]
      exact (Statement.endsExpr_sign hg op _).word
    rw [List.append_assoc]
    exact htarget.startsItem hstop
  | «return» =>
    have hopens : Text.Opens "return" (("return" : Text) ++ rest) := ⟨rest, rfl, hrest⟩
    exact hopens.startsItem_stmt (by decide)
  | @returnValue room g s e hg hword he =>
    have hne : g ++ s ≠ [] := List.append_ne_nil_of_right_ne_nil _ he.starts.1.ne_nil
    have hopens : Text.Opens "return" (("return" : Text) ++ (g ++ s) ++ rest) :=
      ⟨_, List.append_assoc _ _ _, hword.append hne⟩
    exact hopens.startsItem_stmt (by decide)
  | pass =>
    have hopens : Text.Opens "pass" (("pass" : Text) ++ rest) := ⟨rest, rfl, hrest⟩
    exact hopens.startsItem_stmt (by decide)

theorem Line.Written.startsItem {room : Nat} {l : Line} {s rest : Text} (h : l.Written room s)
    (hrest : rest.Avoids CodeUnit.isIdentifierChar) : StartsItem (s ++ rest) := by
  cases h with
  | decl hd =>
    obtain ⟨w, hw, hopens⟩ := hd.exists_opens
    exact (hopens rest).startsItem_decl hw
  | stmt hst => exact (hst.startsItem hrest).1
  | expr he => exact (he.startsItem hrest).1

/-- An item on one line is read where it ends; the gap behind it is left or taken as well. -/
theorem Script.takesToGap_lineItem {room w : Nat} {l : Line} {s gap t : Text}
    (h : l.Written room s) (hgap : IsGap false gap) (ht : Statement.endsItem t = true) :
    TakesToGap room 0 (lineItem w) s gap t fun v => v.bare = l.bare := by
  have hends : EndsExpr false 0 (gap ++ t) := Statement.endsExpr_of_endsItem hgap ht
  cases h with
  | decl hd =>
    exact TakesToGap.lift (Declaration.takesToGap_decl hd hgap ht) hgap
      fun taken left _ _ htakes => takes_lineItem_decl htakes
  | @stmt room st span s hst =>
    have hstart := hst.startsItem hends.word
    have hstmt : TakesToGap (room + 2) 0 (call (Rule.stmt w)) s gap t fun v => v.bare = st.bare :=
      Statement.takesToGap_stmt hst hgap ht
    refine hstmt.lift hgap fun taken left hsplit _ htakes => ?_
    -- whether a declaration is refused depends on the whole text ahead, not on where it is split
    have hsame : s ++ taken ++ (left ++ t) = s ++ (gap ++ t) := by
      rw [hsplit, List.append_assoc, List.append_assoc]
    exact takes_lineItem_stmt (by rw [hsame]; exact hstart.2)
      (by rw [hsame]; exact hstart.1.startsCode.avoids_isSpace) htakes
  | expr he =>
    have hstart := he.startsItem hends.word
    have hexpr := Expr.Written.takes (n := 0) he.succ rfl hends
    exact (takes_lineItem_expr hstart.2 hstart.1.startsCode.avoids_isSpace
      (Statement.refuses_stmt_written he hgap ht) hexpr).toGap

end GDScript
