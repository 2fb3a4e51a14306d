import GDScript.Proofs.Lexeme.Gap
import GDScript.Proofs.Lexeme.Operator

/-!
# Tokens and lists

What the small readers that grammars are made of take where their token is ahead, and where it is
not: signs, words, names and operators. A list of items is read by turns, each of which takes an
item with the gap behind it and a comma with the gap behind that (`takes_itemsTurn_comma`,
`takes_commaTurn_comma`); the last turn takes an item only.
-/

namespace GDScript

/-- A text that starts with another unit does not start with the sign. -/
theorem Text.isPrefixOf_cons_eq_false {u : CodeUnit} {w t : Text} (h : t.Avoids (· == u)) :
    List.isPrefixOf (u :: w) t = false := by
  cases t with
  | nil => rfl
  | cons v t =>
    have hv : (v == u) = false := h
    rw [List.isPrefixOf, BEq.comm, hv, Bool.false_and]

namespace Grammar

variable {R : Type → Type} [RuleSet R] {α : Type} {room n : Nat} {rest t : Text}

/-! ### Signs -/

/-- A look at the text ahead takes nothing. -/
theorem takes_look {f : Text → α} {P : α → Prop} (h : P (f rest)) :
    Takes room n (look f : Grammar R α) [] rest P :=
  takes_read rfl h

theorem takes_check (text : Text) :
    Takes room n (check text : Grammar R Bool) [] rest (· = text.isPrefixOf rest) :=
  takes_look rfl

/-- As many units are taken as are asked for, if the text ahead fits. -/
theorem takes_takeIf {s : Text} {condition : Text → Bool} (h : condition (s ++ rest) = true) :
    Takes room n (read (Reader.takeIf s.length condition) : Grammar R Bool) s rest (· = true) :=
  takes_read (by rw [Reader.takeIf, if_pos h]) rfl

/-- Nothing is taken if it does not. -/
theorem takes_takeIf_nothing {k : Nat} {condition : Text → Bool} (h : condition rest = false) :
    Takes room n (read (Reader.takeIf k condition) : Grammar R Bool) [] rest (· = false) :=
  takes_read (by rw [List.nil_append, Reader.takeIf, h]; rfl) rfl

/-- A sign that is ahead is taken. -/
theorem takes_consume (text : Text) :
    Takes room n (consume text : Grammar R Bool) text rest (· = true) :=
  takes_takeIf (Text.isPrefixOf_append text rest)

/-- A sign that is not ahead is passed by. -/
theorem takes_consume_nothing {text : Text} (h : text.isPrefixOf rest = false) :
    Takes room n (consume text : Grammar R Bool) [] rest (· = false) :=
  takes_takeIf_nothing h

/-- A sign that must be there is taken if it is. -/
theorem takes_expect (text : Text) :
    Takes room n (expect text : Grammar R Unit) text rest fun _ => True :=
  takes_read (by rw [Reader.expect, if_pos (Text.isPrefixOf_append text rest)]) trivial

/-- What is missing is always complained about. -/
theorem refuses_expected (what : Text) :
    Refuses room n (expected what : Grammar R α) t :=
  refuses_read rfl

/-! ### Words and names -/

/-- A word is taken where no longer one stands. -/
theorem takes_keyword {word : Text} (hrest : rest.Avoids CodeUnit.isIdentifierChar) :
    Takes room n (read (Reader.keyword word) : Grammar R Bool) word rest (· = true) :=
  takes_takeIf (Text.startsWord_append_self hrest)

/-- Another word, or the beginning of a longer one, is passed by. -/
theorem takes_keyword_nothing {word : Text} (h : Text.startsWord word rest = false) :
    Takes room n (read (Reader.keyword word) : Grammar R Bool) [] rest (· = false) :=
  takes_takeIf_nothing h

/-- A word that must be there is taken if it is. -/
theorem takes_expectKeyword {word : Text} (hrest : rest.Avoids CodeUnit.isIdentifierChar) :
    Takes room n (expectKeyword word : Grammar R Unit) word rest fun _ => True :=
  takes_read (by rw [Reader.expectKeyword, if_pos (Text.startsWord_append_self hrest)]) trivial

theorem refuses_expectKeyword {word : Text} (h : Text.startsWord word t = false) :
    Refuses room n (expectKeyword word : Grammar R Unit) t :=
  refuses_read (by rw [Reader.expectKeyword, h, if_neg Bool.false_ne_true])

/-- What a reader finds is what is required. -/
theorem takes_require {what s : Text} {reader : Reader (Option α)} {v : α}
    (h : reader (s ++ rest) = .took (some v) s.length) :
    Takes room n (require what reader : Grammar R α) s rest (· = v) := by
  refine Takes.bind_done (takes_read h rfl) fun found hfound => ?_
  subst hfound
  exact takes_pure rfl

/-- A name, where no longer name starts. -/
theorem identifier_append {s : Text} (hs : s.IsName)
    (hrest : rest.Avoids CodeUnit.isIdentifierChar) :
    Reader.identifier (s ++ rest) = .took (some s) s.length := by
  rw [Reader.identifier, Reader.lexeme, Text.identifier?_append hs hrest]

/-- Names with points between them, where neither a longer name nor another point follows. -/
theorem dottedIdentifier_append {s : Text} (hs : s.IsChain CodeUnit.dot)
    (hrest : rest.EndsChain CodeUnit.dot) :
    Reader.dottedIdentifier (s ++ rest) = .took (some s) s.length := by
  rw [Reader.dottedIdentifier, Reader.lexeme, Text.chain?_append hs hrest]

/-! ### Operators -/

/-- The first spelling of a table that is ahead is taken. -/
theorem takes_operator {Op : Type} {table : List (Spelling Op)} {s : Spelling Op}
    (h : table.find? (·.isAt (s.text ++ rest)) = some s) :
    Takes room n (read (Reader.operator table) : Grammar R (Option Op)) s.text rest
      (· = some s.op) :=
  takes_read (by rw [Reader.operator, h]) rfl

theorem takes_operator_nothing {Op : Type} {table : List (Spelling Op)}
    (h : table.find? (·.isAt rest) = none) :
    Takes room n (read (Reader.operator table) : Grammar R (Option Op)) [] rest (· = none) :=
  takes_read (by rw [List.nil_append, Reader.operator, h]; rfl) rfl

/-! ### Lists -/

/-- A gap with a sign behind it. -/
theorem takes_gap_sign {g : Text} {u : CodeUnit} (hg : Text.IsGap (n != 0) g)
    (hu : u.startsGap true = false) :
    Takes room n (gap : Grammar R Unit) g (u :: rest) fun _ => True := by
  refine takes_gap hg ?_
  rw [Text.avoids_cons, ← Bool.not_eq_true]
  intro hgap
  rw [Text.startsGap_true_of hgap] at hu
  -- a gap that were longer would begin with the sign
  exact Bool.noConfusion hu

/-- The turn of a list in brackets, of which `closer` is the closing one. -/
def itemsTurn (closer : Text) (item : Grammar R α) (items : List α) :
    Grammar R (Next (List α)) := do
  if ← consume closer then return .done items
  else
    let found ← item
    gap
    if ← consume "," then
      gap
      return .again (found :: items)
    else
      expect closer
      return .done (found :: items)

omit [RuleSet R] in
/-- A list in brackets is a loop, and the items have been gathered backwards. -/
theorem itemsUntil_eq (closer : Text) (item : Grammar R α) :
    itemsUntil closer item = bracketed do
      gap
      let items ← iterate (itemsTurn closer item) []
      return items.reverse := rfl

/-- The turn of a list of which no bracket belongs to the items. -/
def commaTurn (item : Grammar R α) (items : List α) : Grammar R (Next (List α)) := do
  let found ← item
  gap
  if ← consume "," then
    gap
    return .again (found :: items)
  else return .done (found :: items)

omit [RuleSet R] in
/-- So it is with a list whose bracket is read elsewhere. -/
theorem commaSeparated_eq (item : Grammar R α) :
    commaSeparated item = (do
      let items ← iterate (commaTurn item) []
      return items.reverse) := rfl

variable {item : Grammar R α} {items : List α} {P : α → Prop} {s g g' : Text}

/-- Behind a comma another item must follow. -/
theorem takes_commaTurn_comma (hitem : Takes room n item s (g ++ ("," ++ (g' ++ rest))) P)
    (hg : Text.IsGap (n != 0) g) (hg' : Text.IsGap (n != 0) g')
    (hrest : rest.Avoids (CodeUnit.startsGap (n != 0))) :
    Takes room n (commaTurn item items) (s ++ (g ++ ("," ++ g'))) rest
      fun next => ∃ v, next = .again (v :: items) ∧ P v := by
  refine Takes.bind (by rwa [List.append_assoc, List.append_assoc]) fun v hv => ?_
  refine Takes.bind (takes_gap_sign hg (by decide)) fun _ _ => ?_
  refine Takes.bind (takes_consume _) fun found hfound => ?_
  rw [hfound]
  refine Takes.bind_done (takes_gap hg' hrest) fun _ _ => ?_
  exact takes_pure ⟨v, rfl, hv⟩

/-- An item without a comma behind it is the last one. -/
theorem takes_commaTurn_last {u : CodeUnit} (hitem : Takes room n item s (g ++ u :: rest) P)
    (hg : Text.IsGap (n != 0) g) (hu : u.startsGap true = false) (hcomma : u ≠ 0x2C) :
    Takes room n (commaTurn item items) (s ++ g) (u :: rest)
      fun next => ∃ v, next = .done (v :: items) ∧ P v := by
  refine Takes.bind hitem fun v hv => ?_
  refine Takes.bind_done (takes_gap_sign hg hu) fun _ _ => ?_
  -- any other sign behind the gap ends the list
  have hnone : List.isPrefixOf ("," : Text) (u :: rest) = false :=
    Text.isPrefixOf_cons_eq_false (beq_false_of_ne hcomma)
  refine Takes.look_bind (takes_consume_nothing hnone) fun found hfound => ?_
  rw [hfound]
  exact takes_pure ⟨v, rfl, hv⟩

theorem takes_parenthesized_nothing (hg : Text.IsGap true g) :
    Takes room n (parenthesized item) ("(" ++ (g ++ ")")) rest (· = []) := by
  refine Takes.bind (takes_expect "(") fun _ _ => takes_bracketed ?_
  have hgap : Takes room (n + 1) (gap : Grammar R Unit) g (")" ++ rest) fun _ => True :=
    takes_gap_sign hg (by decide)
  refine Takes.bind hgap fun _ _ => ?_
  refine Takes.bind_done (takes_consume ")") fun found hfound => ?_
  rw [hfound]
  exact takes_pure rfl

/-- A list with at least one item, between parentheses. -/
theorem takes_parenthesized (hg : Text.IsGap true g)
    (hgap : (s ++ (")" ++ rest)).Avoids (CodeUnit.startsGap true))
    (hcloser : (s ++ (")" ++ rest)).Avoids (· == 0x29))
    (hloops : Loops room (n + 1) (commaTurn item) s (")" ++ rest) (· = [])
      (· = items.reverse)) :
    Takes room n (parenthesized item) ("(" ++ (g ++ (s ++ ")"))) rest (· = items) := by
  rw [← List.append_assoc] at hgap
  refine Takes.bind (takes_expect "(") fun _ _ => takes_bracketed ?_
  refine Takes.bind (takes_gap hg hgap) fun _ _ => ?_
  -- the list is not empty, and its first item does not begin with the closing one
  have hnone : List.isPrefixOf (")" : Text) ((s ++ ")") ++ rest) = false := by
    rw [List.append_assoc]
    exact Text.isPrefixOf_cons_eq_false hcloser
  refine Takes.look_bind (takes_consume_nothing hnone) fun found hfound => ?_
  rw [hfound]
  have hitems : Takes room (n + 1) (commaSeparated item) s (")" ++ rest) (· = items) := by
    rw [commaSeparated_eq]
    refine Takes.bind_done (hloops.takes rfl) fun found hfound => ?_
    rw [hfound, List.reverse_reverse]
    exact takes_pure rfl
  refine Takes.bind hitems fun found hfound => ?_
  refine Takes.bind_done (takes_expect ")") fun _ _ => ?_
  exact takes_pure hfound

variable {closer : CodeUnit}

/-- The closing bracket ends the list, also behind a comma. -/
theorem takes_itemsTurn_closer :
    Takes room n (itemsTurn [closer] item items) [closer] rest (· = .done items) := by
  refine Takes.bind_done (takes_consume _) fun found hfound => ?_
  rw [hfound]
  exact takes_pure rfl

/-- Behind a comma there may be another item, or the closing bracket. -/
theorem takes_itemsTurn_comma (hitem : Takes room n item s (g ++ ("," ++ (g' ++ rest))) P)
    (hs : Text.Avoids (· == closer) (s ++ (g ++ ("," ++ (g' ++ rest)))))
    (hg : Text.IsGap (n != 0) g) (hg' : Text.IsGap (n != 0) g')
    (hrest : rest.Avoids (CodeUnit.startsGap (n != 0))) :
    Takes room n (itemsTurn [closer] item items) (s ++ (g ++ ("," ++ g'))) rest
      fun next => ∃ v, next = .again (v :: items) ∧ P v := by
  -- an item does not begin with the closing bracket
  have hnone : List.isPrefixOf [closer] ((s ++ (g ++ ("," ++ g'))) ++ rest) = false := by
    simp only [List.append_assoc]
    exact Text.isPrefixOf_cons_eq_false hs
  refine Takes.look_bind (takes_consume_nothing hnone) fun found hfound => ?_
  rw [hfound]
  refine Takes.bind (by rwa [List.append_assoc, List.append_assoc]) fun v hv => ?_
  refine Takes.bind (takes_gap_sign hg (by decide)) fun _ _ => ?_
  refine Takes.bind (takes_consume _) fun found hfound => ?_
  rw [hfound]
  refine Takes.bind_done (takes_gap hg' hrest) fun _ _ => ?_
  exact takes_pure ⟨v, rfl, hv⟩

/-- The last item is followed by the closing bracket. -/
theorem takes_itemsTurn_last (hitem : Takes room n item s (g ++ closer :: rest) P)
    (hs : Text.Avoids (· == closer) (s ++ (g ++ closer :: rest)))
    (hg : Text.IsGap (n != 0) g) (hgap : closer.startsGap true = false) (hcomma : closer ≠ 0x2C) :
    Takes room n (itemsTurn [closer] item items) (s ++ (g ++ [closer])) rest
      fun next => ∃ v, next = .done (v :: items) ∧ P v := by
  have hnone : List.isPrefixOf [closer] ((s ++ (g ++ [closer])) ++ rest) = false := by
    simp only [List.append_assoc]
    exact Text.isPrefixOf_cons_eq_false hs
  refine Takes.look_bind (takes_consume_nothing hnone) fun found hfound => ?_
  rw [hfound]
  refine Takes.bind (by rwa [List.append_assoc]) fun v hv => ?_
  refine Takes.bind (takes_gap_sign hg hgap) fun _ _ => ?_
  -- no comma stands behind the item, but the closing bracket
  have hother : List.isPrefixOf ("," : Text) ([closer] ++ rest) = false :=
    Text.isPrefixOf_cons_eq_false (beq_false_of_ne hcomma)
  refine Takes.look_bind (takes_consume_nothing hother) fun found hfound => ?_
  rw [hfound]
  refine Takes.bind_done (takes_expect _) fun _ _ => ?_
  exact takes_pure ⟨v, rfl, hv⟩

/-! ### Loops over lists -/

variable {found : List α} {v : α} {Q : List α → Prop}

theorem loops_commaTurn_last {u : CodeUnit} (hitem : Takes room n item s (g ++ u :: rest) (· = v))
    (hg : Text.IsGap (n != 0) g) (hu : u.startsGap true = false) (hcomma : u ≠ 0x2C) :
    Loops room n (commaTurn item) (s ++ g) (u :: rest) (· = found) (· = v :: found) := by
  refine loops_done fun x hx => (takes_commaTurn_last hitem hg hu hcomma).mono ?_
  rintro _ ⟨w, rfl, rfl⟩
  exact ⟨_, rfl, by rw [hx]⟩

/-- An item with its comma, and the items behind it. -/
theorem loops_commaTurn_comma
    (hitem : Takes room n item s (g ++ ("," ++ (g' ++ (t ++ rest)))) (· = v)) (hs : s ≠ [])
    (hg : Text.IsGap (n != 0) g) (hg' : Text.IsGap (n != 0) g')
    (hrest : (t ++ rest).Avoids (CodeUnit.startsGap (n != 0)))
    (hloops : Loops room n (commaTurn item) t rest (· = v :: found) Q) :
    Loops room n (commaTurn item) (s ++ (g ++ ("," ++ g')) ++ t) rest (· = found) Q := by
  -- a turn that takes an item takes at least one unit, so that the loop goes on
  refine Loops.again (fun x hx => ?_) (by simp [hs]) hloops
  refine (takes_commaTurn_comma hitem hg hg' hrest).mono ?_
  rintro _ ⟨w, rfl, rfl⟩
  exact ⟨_, rfl, by rw [hx]⟩

theorem loops_itemsTurn_closer :
    Loops room n (itemsTurn [closer] item) [closer] rest (· = found) (· = found) := by
  refine loops_done fun x hx => takes_itemsTurn_closer.mono ?_
  rintro _ rfl
  exact ⟨_, rfl, hx⟩

theorem loops_itemsTurn_last (hitem : Takes room n item s (g ++ closer :: rest) (· = v))
    (hs : Text.Avoids (· == closer) (s ++ (g ++ closer :: rest)))
    (hg : Text.IsGap (n != 0) g) (hgap : closer.startsGap true = false) (hcomma : closer ≠ 0x2C) :
    Loops room n (itemsTurn [closer] item) (s ++ (g ++ [closer])) rest (· = found)
      (· = v :: found) := by
  refine loops_done fun x hx => (takes_itemsTurn_last hitem hs hg hgap hcomma).mono ?_
  rintro _ ⟨w, rfl, rfl⟩
  exact ⟨_, rfl, by rw [hx]⟩

/-- An item with its comma, and what stands behind it in the brackets. -/
theorem loops_itemsTurn_comma
    (hitem : Takes room n item s (g ++ ("," ++ (g' ++ (t ++ rest)))) (· = v))
    (hs : Text.Avoids (· == closer) (s ++ (g ++ ("," ++ (g' ++ (t ++ rest)))))) (hne : s ≠ [])
    (hg : Text.IsGap (n != 0) g) (hg' : Text.IsGap (n != 0) g')
    (hrest : (t ++ rest).Avoids (CodeUnit.startsGap (n != 0)))
    (hloops : Loops room n (itemsTurn [closer] item) t rest (· = v :: found) Q) :
    Loops room n (itemsTurn [closer] item) (s ++ (g ++ ("," ++ g')) ++ t) rest (· = found) Q := by
  refine Loops.again (fun x hx => ?_) (by simp [hne]) hloops
  refine (takes_itemsTurn_comma hitem hs hg hg' hrest).mono ?_
  rintro _ ⟨w, rfl, rfl⟩
  exact ⟨_, rfl, by rw [hx]⟩

/-- A list up to its closing bracket, with the gap in front of it. -/
theorem takes_itemsUntil {w : Text} (hg : Text.IsGap true g)
    (hrest : (w ++ rest).Avoids (CodeUnit.startsGap true))
    (hloops : Loops room (n + 1) (itemsTurn [closer] item) w rest (· = []) (· = items.reverse)) :
    Takes room n (itemsUntil [closer] item) (g ++ w) rest (· = items) := by
  rw [itemsUntil_eq]
  refine takes_bracketed (Takes.bind (takes_gap hg hrest) fun _ _ => ?_)
  refine Takes.bind_done (hloops.takes rfl) fun found hfound => ?_
  rw [hfound, List.reverse_reverse]
  exact takes_pure rfl

end Grammar

end GDScript
