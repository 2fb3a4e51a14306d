import GDScript.Proofs.Pairing.Items
import GDScript.Proofs.Pairing.Setting

/-!
# Items at the ends of their lines

An item that ends its line is read alone as it is read there, if what stands behind it is no deeper in
the script (`Setting.follows_lineItem`). For anything but an `if` the two runs go alike; an `if` may go
on behind the item with further branches, and then it ends further on. So may a run that finds something
else where an `if` stands, but then it stays on its line.
-/

namespace GDScript

open Grammar

/-! ### Branches that are found behind a text -/

namespace Statement

variable {room indent : Nat} {c : Cursor} {word : Text}

/-- A further branch that is found is read, behind the start of the line that it is found on. -/
theorem yields_continuation_lt {α : Type} {g : Grammar Rule α} (hg : Advances room g)
    (hfound : seekContinuation indent word c.ahead ≠ .took false 0) :
    Yields room
      (do
        if ← read (seekContinuation indent word) then
          let found ← g
          return some found
        else return none) c fun _ d => d.ahead.length < c.ahead.nextCode.length := by
  refine Yields.bind (P := fun sought d => sought = true ∧
    d.ahead.length ≤ c.ahead.nextCode.length) (yields_read fun sought n hread => ?_) ?_
  · rw [seekContinuation, Reader.seekLine] at hread hfound
    split at hread
    · cases hread
      refine ⟨rfl, ?_⟩
      rw [Cursor.ahead_advanceBy, ← List.drop_drop, Text.drop_codeDistance, List.length_drop]
      exact Nat.sub_le _ _
    · next hnot =>
      rw [if_neg hnot] at hfound
      exact absurd rfl hfound
  · -- the word was found, so what it opens is read as well
    rintro _ d ⟨rfl, hd⟩
    rw [if_pos rfl]
    exact ((hg.bind _) d).mono fun _ _ hlt => Nat.lt_of_lt_of_le hlt hd

theorem yields_elifTurn_lt (found : List Condition)
    (hfound : seekContinuation indent "elif" c.ahead ≠ .took false 0) :
    Yields room (elifTurn indent found) c fun _ d => d.ahead.length < c.ahead.nextCode.length :=
  (yields_continuation_lt (Rule.advances room (.elifBranch indent) fun _ => trivial) hfound).bind
    fun _ d hd => (yields_reaches room _ d).mono fun _ _ h => Nat.lt_of_le_of_lt h.length_le hd

theorem yields_elseBranch_lt (hfound : seekContinuation indent "else" c.ahead ≠ .took false 0) :
    Yields room (elseBranch indent) c fun _ d => d.ahead.length < c.ahead.nextCode.length :=
  yields_continuation_lt (Rule.advances room (.elseBranch indent) fun _ => trivial) hfound

end Statement

namespace Setting

variable {source : Text} {x : Setting source} {a : x.Account} {room indent : Nat} {c c' : Cursor}

variable (x) in
/-- The cursor is further on than where the script ends. -/
def Past (d : Cursor) : Prop := d.ahead.length < x.behind.length

theorem lasts_past : Cursor.Lasts x.Past := fun _ _ hd h => Nat.lt_of_le_of_lt h.length_le hd

theorem past_of_spent (h : a.pairing.Spent c c') : x.Past c' := h.gone.2

/-- Where the script has no further line of code, the next one stands behind it. -/
theorem length_nextCode_le (a : x.Account) (h : x.Between c c') (hended : c.ahead.nextCode = []) :
    c'.ahead.nextCode.length ≤ x.behind.length := by
  have hcode : x.Between _ _ := a.pairing.between_emptyLines h
  have hahead := hcode.ahead_cases
  rw [Cursor.ahead_advanceBy, Cursor.ahead_advanceBy, ← Text.nextCode, ← Text.nextCode, hended,
    List.nil_append] at hahead
  rcases hahead with ⟨hahead, -⟩ | ⟨-, hleft⟩
  · rw [hahead]
  · exact Nat.le_of_lt hleft.length_lt

/-- What goes on behind the script with what is read in it ends behind it. -/
theorem follows_of_agrees {α : Type} {g g' : Grammar Rule α} {V : α → α → Prop}
    {B : Cursor → Cursor → Prop} {strict : Prop}
    (h : Pairs a.pairing.reports room 0 g g' c c' (a.pairing.Agrees V B)) :
    Follows a.place room 0 strict x.Past g g' c c' fun v v' d d' => V v v' ∧ B d d' :=
  Pairs.follows h fun _ _ _ _ hv => hv.imp_right past_of_spent

theorem follows_elifTurn {found found' : List Condition}
    (hfound : a.pairing.SameConditions found found') (hc : a.pairing.Ended c c') :
    Follows a.place room 0 False x.Past (Statement.elifTurn indent found)
      (Statement.elifTurn indent found') c c'
      (Next.Pairs (fun f f' d d' => a.pairing.SameConditions f f' ∧ a.pairing.Ended d d')
        fun f f' d d' => a.pairing.SameConditions f f' ∧ a.pairing.Ended d d') := by
  by_cases hends : c.ahead.nextCode = [] →
      Statement.seekContinuation indent "elif" c'.ahead = .took false 0
  · refine Pairs.follows (Pairing.pairs_elifTurn (a.pairing.blockCarry room) hends hfound hc) ?_
    rintro (f | f) (f' | f') d d' hnext
    · exact hnext.imp_right past_of_spent
    · exact hnext.elim
    · exact hnext.elim
    · exact hnext.imp_right past_of_spent
  · -- the longer script alone goes on with an `elif`, which leads it past the item
    obtain ⟨hended, hsought⟩ := Classical.not_imp.mp hends
    have hle := length_nextCode_le a hc.between hended
    exact follows_of_yieldsIn (((Statement.yields_elifTurn_lt found' hsought).mono fun _ _ hlt =>
      Nat.lt_of_lt_of_le hlt hle).inside 0)

theorem follows_elseBranch (hc : a.pairing.Ended c c') :
    Follows a.place room 0 False x.Past (Statement.elseBranch indent) (Statement.elseBranch indent)
      c c' fun body body' d d' =>
        Option.Rel a.pairing.SameBlock body body' ∧ a.pairing.Ended d d' := by
  by_cases hends : c.ahead.nextCode = [] →
      Statement.seekContinuation indent "else" c'.ahead = .took false 0
  · exact follows_of_agrees (Pairing.pairs_elseBranch (a.pairing.blockCarry room) hends hc)
  · obtain ⟨hended, hsought⟩ := Classical.not_imp.mp hends
    have hle := length_nextCode_le a hc.between hended
    exact follows_of_yieldsIn (((Statement.yields_elseBranch_lt hsought).mono fun _ _ hlt =>
      Nat.lt_of_lt_of_le hlt hle).inside 0)

/-- The branches of an `if` that ends with the script are found without what stands behind it. -/
theorem follows_branches (hc : x.Inside [] c c') :
    Follows a.place room 0 False x.Past (Statement.branches indent) (Statement.branches indent) c c'
      fun v v' d d' => a.pairing.SameStmt v v' ∧ a.pairing.Ended d d' := by
  -- what is past the item stays past it
  have hpast : ∀ {α : Type} {g : Grammar Rule α} {d : Cursor}, x.Past d →
      Yields room g d fun _ e => x.Past e := fun hd => yields_of_lasts lasts_past hd
  refine Follows.bind (follows_of_agrees
    (Pairing.pairs_call_condition (a.pairing.blockCarry room) indent hc))
    (fun branch branch' d d' hbranch => ?_) (fun _ _ hd => hpast hd) False.elim
  refine Follows.bind (Follows.loop lasts_past (Statement.turnsAdvance_elifTurn room indent)
    (Statement.turnsAdvance_elifTurn room indent)
    (I := fun found found' d d' => a.pairing.SameConditions found found' ∧ a.pairing.Ended d d')
    ⟨rfl, hbranch.2⟩ fun _ _ _ _ h => follows_elifTurn h.1 h.2)
    (fun elifs elifs' e e' helifs => ?_) (fun _ _ hd => hpast hd) False.elim
  refine Follows.bind (follows_elseBranch helifs.2) (fun body body' f f' hbody => ?_)
    (fun _ _ hd => hpast hd) False.elim
  exact (pairs_pure ⟨TokenPairing.sameStmt_ifStmt hbranch.1 helifs.1 hbody.1, hbody.2⟩ :
    Pairs a.pairing.reports room 0 _ _ f f' fun v v' d d' =>
      a.pairing.SameStmt v v' ∧ a.pairing.Ended d d').follows fun _ _ _ _ => .inl

theorem follows_ifStmt (hc : x.Inside [] c c') :
    Follows a.place room 0 False x.Past (Statement.ifStmt indent) (Statement.ifStmt indent) c c'
      fun v v' d d' => a.pairing.SameStmt v v' ∧ a.pairing.Ended d d' := by
  have hword : Pairs a.pairing.reports room 0 (expectKeyword "if") (expectKeyword "if") c c'
      fun _ _ d d' => x.Inside [] d d' :=
    (TokenPairing.carries_expectKeyword (by decide) c c'
      (show a.inFront.tokens.inside [] c c' from hc)).mono fun _ _ _ _ hd => hd.2
  exact hword.then Outcome.fails_follows fun _ _ d d' hd => follows_branches hd

/-! ### Items -/

/-- No place is kept. -/
def placeless (x : Setting source) : x.Account where
  place _ _ := True
  view := Location.nowhere
  view' := Location.nowhere
  view_eq _ := Location.nowhere_eq _ _
  place_advanceBy _ _ := trivial
  place_between _ := trivial

variable (x) in
/-- The cursor is further on than where the script ends, or still on the line that starts there. -/
def Elsewhere (start d : Cursor) : Prop := x.Past d ∨ start.OnLine d

/-- What else is found where an `if` stands stays on its line. -/
theorem yieldsIn_elsewhere_of_if (hif : Text.startsWord "if" c.ahead = true) {g : Grammar Rule Stmt}
    (hg : g ∈ [call (.whileStmt indent), call (.forStmt indent), call (.matchStmt indent),
      call .returnStmt, call .assignStmt, call .passStmt]) :
    YieldsIn room 0 g c fun _ d => x.Elsewhere c d := by
  -- a rule that starts with another keyword does not find it at `if`
  have hword : ∀ {rule : Rule Stmt} {f : Unit → Grammar Rule Stmt} (word : Text), word.IsName →
      ("if" : Text) ≠ word → rule.body = expectKeyword word >>= f →
        YieldsIn room 0 (call rule) c fun _ d => x.Elsewhere c d := by
    intro rule f word hname hne hbody
    refine yieldsIn_call fun room' _ => ?_
    change YieldsIn room' 0 rule.body c _
    rw [hbody]
    have hnot := Text.startsWord_eq_false_of_ne (by decide) hname hne hif
    exact ((yields_expectKeyword_of_eq_false hnot).bind fun _ _ h => h.elim).inside 0
  -- the others read within the line only
  have hplain : ∀ rule : Rule Stmt, rule.IsPlain → TokenPairing.Fits rule [] →
      (Script.lineTokens c).rule rule = rule →
        YieldsIn room 0 (call rule) c fun _ d => x.Elsewhere c d := fun rule hrule hfits hsame =>
    (Script.yieldsIn_plain room rule hrule hfits c hsame).mono fun _ _ => .inr
  simp only [List.mem_cons, List.not_mem_nil, or_false] at hg
  rcases hg with rfl | rfl | rfl | rfl | rfl | rfl
  · exact hword "while" (by decide) (by decide) rfl
  · exact hword "for" (by decide) (by decide) rfl
  · exact hword "match" (by decide) (by decide) rfl
  · exact hplain .returnStmt trivial rfl rfl
  · exact hplain .assignStmt trivial rfl rfl
  · exact hplain .passStmt trivial trivial rfl

/-- So a statement that ends its line is the `if`. -/
theorem follows_stmt_of_if (hif : Text.startsWord "if" c'.ahead = true) (hc : x.Inside [] c c') :
    Follows a.place room 0 False (x.Elsewhere c') (call (Rule.stmt indent)) (call (Rule.stmt indent))
      c c' fun v v' d d' => a.pairing.SameStmt v v' ∧ x.Inside [] d d' := by
  have hplace : a.place c.location c'.location := a.pairing.place_inside hc
  refine Relates.call rfl hplace Outcome.fails_follows fun room' _ => ?_
  refine Follows.orElse_of_yieldsIn (Relates.call rfl hplace Outcome.fails_follows fun _ _ => ?_)
    (yieldsIn_choice fun g hg => yieldsIn_elsewhere_of_if hif hg)
  exact (follows_ifStmt hc).mono (fun _ => .inl) fun _ _ _ _ h => ⟨h.1, h.2.inside⟩

/-- An item that ends its line is read alone as it is read there. -/
theorem follows_lineItem (hc : x.Inside [] c c') :
    Follows a.place room 0 False (x.Elsewhere c') (Script.lineItem indent) (Script.lineItem indent)
      c c' fun l l' d d' => a.pairing.SameItem l l' ∧ x.Inside [] d d' := by
  by_cases hif : Text.startsWord "if" c.ahead = true
  · have hif' : Text.startsWord "if" c'.ahead = true :=
      (hc.sameLine.sameToken.startsWord (by decide)).trans hif
    have hplace : a.place c.location c'.location := a.pairing.place_inside hc
    have hdecl : Follows a.place room 0 True (x.Elsewhere c') (call (Rule.decl indent))
        (call (Rule.decl indent)) c c' fun v v' d d' => a.pairing.SameDecl v v' ∧ x.Inside [] d d' :=
      (follows_of_agrees (a.pairing.blockCarry room (.decl indent) c c' hc)).mono (fun _ => .inl)
        fun _ _ _ _ h => h
    -- an expression at `if` fails or ends elsewhere: it has no part in what follows
    have hexpr : YieldsIn room 0 (Script.spanned Expression.expr .expr c'.location) c'
        fun _ d => x.Elsewhere c' d :=
      Script.yieldsIn_spanned ((Script.yieldsIn_plain room .expr trivial trivial c' rfl).mono
        fun _ _ => .inr)
    rw [Script.lineItem_eq]
    refine relates_here_bind (Follows.orElse ?_ (Follows.orElse_of_yieldsIn ?_ hexpr))
    · exact InFront.follows_spanned (x := a.inFront)
        (fun h h' hsame => TokenPairing.sameItem_decl h h' hsame) hplace hdecl
    · exact InFront.follows_spanned (x := a.inFront)
        (fun h h' hsame => TokenPairing.sameItem_stmt h h' hsame) hplace (follows_stmt_of_if hif' hc)
  · -- apart from an `if` the two runs go alike
    have hwhole : a.pairing.IsWhole indent c := .inr (Bool.not_eq_true _ ▸ hif)
    exact (follows_of_agrees (Pairing.pairs_lineItem (a.pairing.blockCarry room) hwhole hc)).mono
      (fun _ => .inl) fun _ _ _ _ h => h

end Setting

end GDScript
