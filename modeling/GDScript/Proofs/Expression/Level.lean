import GDScript.Grammar.Language
import GDScript.Proofs.Expression.Boundary

/-!
# The levels of the grammar of expressions

One grammar for each level (`Expression.atLevel`), and what its parts take: the turns of a binary
level, which take an operator with the operand on its right; subscripts, which are folded to the
left; and members, of which each takes the rest of the chain. `Chains` puts the two folds together:
it says what the rest of a chain takes from a subscripted value on.
-/

namespace GDScript.Expression

open Grammar

variable {room n : Nat} {rest : Text}

/-- The grammar of the expressions of a level, where the subscripted values share the next one. -/
def atLevel : Nat → Grammar Rule Expr
  | 0 => logic
  | 1 => sum
  | 2 => term
  | 3 => unary
  | 4 => postfixed
  | _ => primary

/-! ### Binary operators -/

/-- The turn of a binary level. -/
def binaryTurn (level : Nat) (left : Expr) : Grammar Rule (Next Expr) := do
  let found ← Grammar.optional do
    gap
    read (Reader.operator (Spelling.binaryTable level))
  match found with
  | none => return .done left
  | some op =>
    gap
    let right ← atLevel (level + 1)
    return .again (.binary op left right)

theorem atLevel_eq {level : Nat} (h : level ≤ 2) :
    atLevel level = (do
      let first ← atLevel (level + 1)
      iterate (binaryTurn level) first) :=
  match level, h with
  | 0, _ | 1, _ | 2, _ => rfl

variable {level : Nat}

/-- Where no operator of the level follows, not even behind a gap, the left operand is all. -/
theorem takes_binaryTurn_done {left : Expr} (hlevel : level ≤ 2)
    (hrest : rest.EndsExpr (n != 0) level) :
    Takes room n (binaryTurn level left) [] rest (· = .done left) := by
  have hsplit := List.take_append_drop (Text.gapLengthIn (n != 0) rest) rest
  have hlook : Takes room n (Grammar.optional do
      gap
      (read (Reader.operator (Spelling.binaryTable level)) : Grammar Rule (Option BinaryOp)))
      [] rest (· = none) := by
    rw [← hsplit]
    refine takes_rewindIf_forget (Takes.bind_done takes_gap_ahead fun _ _ => ?_)
    refine Takes.mono (takes_operator_nothing ?_) fun v hv => ⟨hv, by rw [hv]; rfl⟩
    exact hrest.operator level hlevel (Nat.le_refl level)
  refine Takes.look_bind hlook fun found hfound => ?_
  rw [hfound]
  exact takes_pure rfl

/-- An operator of the level, with gaps on both sides and the operand on its right. -/
theorem takes_binaryTurn_again {left right : Expr} {row : Spelling BinaryOp} {g g' t : Text}
    (hlevel : level ≤ 2) (hrow : row ∈ Spelling.binaryTable level)
    (hg : g.IsGap (n != 0)) (hg' : g'.IsGap (n != 0)) (hne' : g' ≠ [])
    (ht : (t ++ rest).Avoids (CodeUnit.startsGap (n != 0)))
    (hright : Takes room n (atLevel (level + 1)) t rest (· = right)) :
    Takes room n (binaryTurn level left) (g ++ row.text ++ (g' ++ t)) rest
      (· = .again (.binary row.op left right)) := by
  -- a gap is behind the operator, so no longer one is spelled there
  have hfind : (Spelling.binaryTable level).find? (·.isAt (row.text ++ (g' ++ t ++ rest)))
      = some row := by
    cases g' with
    | nil => exact absurd rfl hne'
    | cons u g' =>
      rw [List.cons_append, List.cons_append,
        Spelling.find?_append_cons (Spelling.isDense_binaryTable level hlevel)
          (Text.startsGap_true_of hg'.startsGap)]
      exact (Spelling.find?_binaryTable_space level hlevel row hrow).1
  have hgap : (row.text ++ (g' ++ t ++ rest)).Avoids (CodeUnit.startsGap (n != 0)) := by
    have hstart := Spelling.startsWith_binaryTable level hlevel row hrow
    refine (hstart.append _).avoids fun u hu => ?_
    rw [Text.startsGap_true_of hu]
    rfl
  refine Takes.bind (takes_rewindIf (Takes.bind (takes_gap hg hgap) fun _ _ => ?_))
    fun found (hfound : found = some row.op) => ?_
  · exact Takes.mono (takes_operator hfind) fun v hv => ⟨hv, by rw [hv]; rfl⟩
  · rw [hfound]
    refine Takes.bind (takes_gap hg' ht) fun _ _ => ?_
    refine Takes.bind_done hright fun v hv => ?_
    rw [hv]
    exact takes_pure rfl

/-! ### Brackets -/

/-- An expression in brackets, with gaps inside them. -/
theorem takes_enclosed {opener : Text} {closer : CodeUnit} {g s g' : Text} {e : Expr}
    (hg : g.IsGap true) (hg' : g'.IsGap true) (hcloser : closer.startsGap true = false)
    (hs : (s ++ (g' ++ closer :: rest)).Avoids (CodeUnit.startsGap true))
    (he : Takes room (n + 1) logic s (g' ++ closer :: rest) (· = e)) :
    Takes (room + 1) n (enclosed opener [closer]) (opener ++ (g ++ (s ++ (g' ++ [closer])))) rest
      (· = e) := by
  refine Takes.bind (takes_expect opener) fun _ _ => takes_bracketed ?_
  refine Takes.bind (takes_gap hg ?_) fun _ _ => ?_
  · rw [List.append_assoc, List.append_assoc]
    exact hs
  · -- the inner expression is read inside brackets, where a gap may span lines
    refine Takes.bind (P := (· = e)) (takes_call ?_) fun v hv => ?_
    · rw [List.append_assoc]
      exact he
    · refine Takes.bind (takes_gap_sign hg' hcloser) fun _ _ => ?_
      refine Takes.bind_done (takes_expect [closer]) fun _ _ => ?_
      exact takes_pure hv

/-! ### Chains -/

/-- The turn of the subscripts. -/
def indexTurn (subscripted : Expr) : Grammar Rule (Next Expr) := do
  if ← check "[" then
    let index ← call .index
    return .again (.binary .index subscripted index)
  else return .done subscripted

/-- A name or a call, with the subscripts and members that follow it. -/
def memberChain : Grammar Rule Expr := do
  let found ← identOrCall
  call (.member found)

/-- What follows the subscripts of a chain. -/
def chainEnd (subscripted : Expr) : Grammar Rule Expr := do
  if ← read (Reader.takeIf 1 startsMember) then
    let found ← identOrCall
    let rest ← call (.member found)
    return .binary .attr subscripted rest
  else return subscripted

/-- From the subscripted value on, the rest of a chain takes the text and finds a value with `Q`. -/
def Chains (room n : Nat) (e : Expr) (t rest : Text) (Q : Expr → Prop) : Prop :=
  ∃ t₁ t₂ e', t = t₁ ++ t₂ ∧ Loops room n indexTurn t₁ (t₂ ++ rest) (· = e) (· = e') ∧
    Takes room n (chainEnd e') t₂ rest Q

theorem Chains.takes {e : Expr} {t : Text} {Q : Expr → Prop} (h : Chains room n e t rest Q) :
    Takes room n (chain e) t rest Q := by
  obtain ⟨t₁, t₂, e', rfl, hloops, hend⟩ := h
  refine Takes.bind (hloops.takes rfl) fun v hv => ?_
  rw [hv]
  exact hend

/-- Where no subscript follows, the subscripts end. -/
theorem loops_indexTurn_done {e : Expr} (hrest : rest.Avoids (· == 0x5B)) :
    Loops room n indexTurn [] rest (· = e) (· = e) := by
  refine loops_done fun x hx => ?_
  have hnone : List.isPrefixOf ("[" : Text) rest = false := Text.isPrefixOf_cons_eq_false hrest
  refine Takes.look_bind (takes_check "[") fun found hfound => ?_
  rw [hfound, List.nil_append, hnone]
  exact takes_pure ⟨x, rfl, hx⟩

/-- Where neither a subscript nor a member follows, the chain ends. -/
theorem chains_done {b : Bool} {e : Expr} (hrest : rest.EndsExpr b 4) :
    Chains room n e [] rest (· = e) := by
  refine ⟨[], [], e, rfl, loops_indexTurn_done (hrest.index (by omega)), ?_⟩
  refine Takes.look_bind (takes_takeIf_nothing (hrest.member (by omega))) fun found hfound => ?_
  rw [hfound]
  exact takes_pure rfl

/-- A member takes what follows it. -/
theorem chains_member {e m : Expr} {t : Text} (ht : t.StartsWith CodeUnit.isIdentifierStart)
    (hm : Takes room n memberChain t rest (· = m)) :
    Chains room n e (CodeUnit.dot :: t) rest (· = .binary .attr e m) := by
  refine ⟨[], CodeUnit.dot :: t, e, rfl, loops_indexTurn_done rfl, ?_⟩
  have hstart : startsMember ([CodeUnit.dot] ++ (t ++ rest)) = true := ht.append rest
  refine Takes.bind (s := [CodeUnit.dot]) (takes_takeIf hstart) fun found hfound => ?_
  rw [hfound]
  refine Takes.assoc (Takes.bind_done hm fun v hv => ?_)
  rw [hv]
  exact takes_pure rfl

/-- A subscript is folded to the left. -/
theorem Chains.index {e i : Expr} {s t : Text} {Q : Expr → Prop}
    (hs : s.StartsWith (· == 0x5B)) (hi : Takes room n (call Rule.index) s (t ++ rest) (· = i))
    (h : Chains room n (.binary .index e i) t rest Q) : Chains room n e (s ++ t) rest Q := by
  obtain ⟨t₁, t₂, e', rfl, hloops, hend⟩ := h
  refine ⟨s ++ t₁, t₂, e', by rw [List.append_assoc], ?_, hend⟩
  refine Loops.again (fun x hx => ?_) hs.ne_nil hloops
  -- the bracket joins the value in front of it
  have hopen : List.isPrefixOf ("[" : Text) (s ++ (t₁ ++ (t₂ ++ rest))) = true := by
    cases s with
    | nil => exact Bool.noConfusion hs
    | cons u s =>
      rw [beq_iff_eq.mp (show (u == 0x5B) = true from hs)]
      rfl
  refine Takes.look_bind (takes_check "[") fun found hfound => ?_
  rw [hfound, hopen]
  refine Takes.bind_done (by rwa [List.append_assoc] at hi) fun v hv => ?_
  rw [hv, hx]
  exact takes_pure ⟨_, rfl, rfl⟩

end GDScript.Expression
