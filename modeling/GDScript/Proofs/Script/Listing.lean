import GDScript.Proofs.Script.Binding

/-!
# Lists of a declaration

A list takes what is written as one as soon as the rule for its items takes what is written as an
item (`Grammar.loops_separated`). The items are names, parameters of functions and variants of
enumerations; the last ones take the gap before them, and the braces around them belong to their
own rule (`Declaration.takes_variants`).
-/

namespace GDScript

open Grammar Declaration
open Text (IsGap IsName IsChain EndsExpr EndsChain)

theorem FunctionArg.Written.startsOperand {room : Nat} {a : FunctionArg} {s : Text}
    (h : a.Written room s) : s.StartsWith CodeUnit.startsOperand := by
  cases h with
  | name hname => exact hname.startsOperand
  | hint hname => exact hname.startsOperand.append _
  | value hname => exact hname.startsOperand.append _
  | hintValue hname => exact hname.startsOperand.append _

theorem EnumVariant.Written.startsOperand {room : Nat} {v : EnumVariant} {s : Text}
    (h : v.Written room s) : s.StartsWith CodeUnit.startsOperand := by
  cases h with
  | name hname => exact hname.startsOperand
  | value hname => exact hname.startsOperand.append _

/-! ### Lists -/

namespace Grammar

variable {α : Type} {room n : Nat} {item : Grammar Rule α} {P : α → Text → Prop} {xs : List α}
  {s t g rest : Text}

theorem startsWith_separated {b : Bool} {p : CodeUnit → Bool}
    (hP : ∀ x s, P x s → s.StartsWith p) (h : Text.Separated P b xs t) : t.StartsWith p := by
  cases h with
  | last hx => exact (hP _ _ hx).append _
  | lastComma _ hx => exact (hP _ _ hx).append _
  | cons hx =>
    rw [List.append_assoc]
    exact (hP _ _ hx).append _

/-- Items with commas between them, up to a closing parenthesis. -/
theorem loops_separated (hn : (n != 0) = true)
    (hP : ∀ x s, P x s → s.StartsWith CodeUnit.startsOperand)
    (hitem : ∀ x s, P x s → ∀ (g : Text) (u : CodeUnit) (rest : Text), IsGap true g →
      u = 0x2C ∨ u = 0x29 → Takes room n item s (g ++ u :: rest) (· = x))
    (h : Text.Separated P false xs t) (found : List α) :
    Loops room n (commaTurn item) t (0x29 :: rest) (· = found) (· = xs.reverse ++ found) := by
  -- on the list as it is written; the items found so far stand in reverse
  induction h generalizing found with
  | @last x s g hx hg =>
    exact loops_commaTurn_last (hitem x s hx g _ _ hg (.inr rfl)) (by rwa [hn]) (by decide)
      (by decide)
  | lastComma hcomma => exact absurd hcomma (by decide)
  | @cons x xs s g g' t hx hg hg' hxs ih =>
    have hgap := (startsWith_separated hP hxs).avoids_startsGap (n != 0) (0x29 :: rest)
    have hloops := ih (x :: found)
    rw [show xs.reverse ++ (x :: found) = (x :: xs).reverse ++ found by simp] at hloops
    exact loops_commaTurn_comma (hitem x s hx g _ _ hg (.inl rfl)) (hP x s hx).ne_nil
      (by rwa [hn]) (by rwa [hn]) hgap hloops

theorem takes_parenthesized_written
    (hP : ∀ x s, P x s → s.StartsWith CodeUnit.startsOperand)
    (hitem : ∀ x s, P x s → ∀ (g : Text) (u : CodeUnit) (rest : Text), IsGap true g →
      u = 0x2C ∨ u = 0x29 → Takes room (n + 1) item s (g ++ u :: rest) (· = x))
    (h : Text.Parenthesized P xs s) : Takes room n (parenthesized item) s rest (· = xs) := by
  cases h with
  | nil hg => exact takes_parenthesized_nothing hg
  | @items xs g t hg hxs =>
    have hstart := startsWith_separated hP hxs
    have hloops : Loops room (n + 1) (commaTurn item) t (0x29 :: rest) (· = [])
        (· = xs.reverse ++ []) := loops_separated (by simp) hP hitem hxs []
    rw [List.append_nil] at hloops
    refine takes_parenthesized hg (hstart.avoids_startsGap true _) ?_ hloops
    exact (hstart.append _).avoids_sign rfl

end Grammar

namespace Declaration

open Expression (name)

variable {room n : Nat} {s rest gap t : Text}

/-! ### Parameters of functions -/

theorem startsAnnotation_eq_false (h : rest.Avoids (· == 0x3A)) :
    startsAnnotation rest = false := by
  rw [ startsAnnotation, show List.isPrefixOf (":" : Text) rest = false from
    Text.isPrefixOf_cons_eq_false h, Bool.false_and]

theorem takes_argAnnotation {g g' hint : Text} (hg : IsGap (n != 0) g) (hg' : IsGap (n != 0) g')
    (hhint : IsChain CodeUnit.dot hint) (hrest : rest.EndsChain CodeUnit.dot) :
    Takes room n argAnnotation (g ++ (":" ++ (g' ++ hint))) rest (· = some hint) := by
  have hcolon : startsAnnotation ((":" : Text) ++ (g' ++ hint) ++ rest) = true := by
    rw [ startsAnnotation, isPrefixOf_inferred_eq_false hg' hhint.startsOperand, List.append_assoc,
      Text.isPrefixOf_append]
    rfl
  refine (takes_optional (P := (· = hint)) ?_).mono fun v ⟨x, hv, hx⟩ => by rw [hv, hx]
  refine Takes.bind (takes_gap_sign hg (by decide)) fun _ _ => ?_
  refine Takes.look_bind (takes_look (P := (· = true)) hcolon) fun found hfound => ?_
  rw [hfound]
  refine Takes.bind (takes_expect ":") fun _ _ => ?_
  refine Takes.bind (takes_gap hg' (hhint.startsOperand.avoids_startsGap _ rest)) fun _ _ => ?_
  exact Takes.bind_done (takes_typeHint hhint hrest) fun v hv => takes_pure ⟨v, rfl, hv⟩

theorem takes_argAnnotation_nothing {u : CodeUnit} (hgap : IsGap (n != 0) gap)
    (hu : u.startsGap true = false) (hcolon : u ≠ 0x3A) :
    Takes room n argAnnotation [] (gap ++ u :: rest) (· = none) := by
  have hnone : startsAnnotation (u :: rest) = false :=
    startsAnnotation_eq_false (beq_false_of_ne hcolon)
  refine takes_optional_nothing (Takes.bind_done (takes_gap_sign hgap hu) fun _ _ => ?_)
  refine Takes.look_bind (takes_look (P := (· = false)) hnone) fun found hfound => ?_
  rw [hfound]
  exact takes_pure rfl

/-- Behind the spaces of a gap there is no sign that does not stand behind the gap. -/
theorem avoids_dropWhile_gap {c u : CodeUnit} {g : Text} (hg : Text.IsLayout g)
    (hc : c.startsGap true = false) (hu : u.startsGap true = false) (hne : u ≠ c) :
    Text.Avoids (· == c) ((g ++ u :: rest).dropWhile CodeUnit.isSpace) := by
  have hstop : ∀ {v : CodeUnit} {r : Text}, v.isSpace = false → v ≠ c →
      Text.Avoids (· == c) ((v :: r).dropWhile CodeUnit.isSpace) := by
    intro v r hv hvc
    rw [List.dropWhile_cons, hv]
    exact beq_false_of_ne hvc
  obtain ⟨hspace, hlineEnd, hhash⟩ := Text.startsGap_true_eq_false hc
  -- the spaces end at the sign behind the gap, or at a line end or comment within it
  induction hg with
  | nil => exact hstop (Text.startsGap_true_eq_false hu).1 hne
  | @unit v g hv _ ih =>
    by_cases hisSpace : v.isSpace = true
    · rw [List.cons_append, List.dropWhile_cons, hisSpace]
      exact ih
    · refine hstop (Bool.not_eq_true _ ▸ hisSpace) ?_
      rintro rfl
      rw [hspace, hlineEnd] at hv
      exact absurd hv (by decide)
  | comment =>
    refine hstop rfl ?_
    rintro rfl
    exact Bool.noConfusion hhash

theorem takes_functionArg_of_parts {name' : Text} {hint : Option Text} {value : Option Expr}
    (hname : IsName name') (hword : (s ++ (t ++ rest)).Avoids CodeUnit.isIdentifierChar)
    (hhint' : Takes room n argAnnotation s (t ++ rest) (· = hint))
    (hinitializer : Takes room n initializer t rest (· = value)) :
    Takes (room + 1) n (call Rule.functionArg) (name' ++ (s ++ t)) rest
      (· = ⟨name', hint, value⟩) := by
  refine takes_call (Takes.bind (Expression.takes_name hname ?_) fun found hfound => ?_)
  · rwa [List.append_assoc]
  · refine Takes.bind hhint' fun found' hfound' => ?_
    refine Takes.bind_done hinitializer fun found'' hfound'' => ?_
    rw [hfound, hfound', hfound'']
    exact takes_pure rfl

/-- A parameter; the gap behind it is left. -/
theorem takes_functionArg {a : FunctionArg} {g : Text} {u : CodeUnit}
    (h : a.Written room s) (hg : IsGap true g) (hu : u = 0x2C ∨ u = 0x29) :
    Takes room (n + 1) (call Rule.functionArg) s (g ++ u :: rest) (· = a) := by
  have hseparates : u.separates = true := by rcases hu with rfl | rfl <;> decide
  have hgap : u.startsGap true = false := by rcases hu with rfl | rfl <;> decide
  have hcolon : u ≠ 0x3A := by rcases hu with rfl | rfl <;> decide
  have hset : u ≠ 0x3D := by rcases hu with rfl | rfl <;> decide
  have hends : EndsExpr true 0 (g ++ u :: rest) := endsExpr_separator hg hseparates
  -- where no default is written, the separator is found behind the gap instead of a sign
  have hnone : ∀ room, Takes room (n + 1) initializer [] (g ++ u :: rest) (· = none) := fun _ =>
    takes_initializer_nothing (avoids_dropWhile_gap hg (by decide) hgap hset)
  have hword : ∀ {h t : Text} (r : Text), IsGap true h →
      (t.StartsWith fun u => !u.isIdentifierChar) →
        ((h ++ t) ++ r).Avoids CodeUnit.isIdentifierChar := by
    intro h t r hh ht
    rw [List.append_assoc]
    exact hh.endsWord ((ht.append r).avoids (by simp))
  cases h with
  | @name room name' hname =>
    have htakes := takes_functionArg_of_parts (s := []) (t := []) hname hends.word
      (takes_argAnnotation_nothing (n := n + 1) hg hgap hcolon) (hnone room)
    rwa [List.append_nil, List.append_nil] at htakes
  | @hint room name' h h' hint hname hh hh' hhint =>
    have hhint' : Takes room (n + 1) argAnnotation (h ++ (":" ++ (h' ++ hint)))
        (g ++ u :: rest) (· = some hint) :=
      takes_argAnnotation hh hh' hhint (hends.chain (by omega))
    have htakes := takes_functionArg_of_parts (t := []) hname (hword _ hh ?_) hhint' (hnone _)
    · rwa [List.append_nil] at htakes
    · rfl
  | @value room name' k k' s e hname hk hk' he =>
    have hvalue : Takes (room + 1) (n + 1) Expression.expr s (g ++ u :: rest) (· = e) :=
      he.takes rfl hends
    have hinitializer := takes_initializer hk hk' he.starts.1 hvalue
    have hhint' : Takes (room + 1) (n + 1) argAnnotation []
        ((k ++ ("=" ++ (k' ++ s))) ++ (g ++ u :: rest)) (· = none) := by
      rw [List.append_assoc]
      exact takes_argAnnotation_nothing (Text.isGap_of_false hk) (by decide) (by decide)
    exact takes_functionArg_of_parts (s := []) hname (hword _ (Text.isGap_of_false hk) rfl)
      hhint' hinitializer
  | @hintValue room name' h h' hint k k' s e hname hh hh' hhint hk hk' he =>
    have hvalue : Takes (room + 1) (n + 1) Expression.expr s (g ++ u :: rest) (· = e) :=
      he.takes rfl hends
    have hinitializer := takes_initializer hk hk' he.starts.1 hvalue
    have hhint' : Takes (room + 1) (n + 1) argAnnotation (h ++ (":" ++ (h' ++ hint)))
        ((k ++ ("=" ++ (k' ++ s))) ++ (g ++ u :: rest)) (· = some hint) := by
      refine takes_argAnnotation hh hh' hhint ?_
      rw [List.append_assoc]
      exact hk.endsChain rfl rfl
    have htakes := takes_functionArg_of_parts hname (hword _ hh ?_) hhint' hinitializer
    · simpa only [List.append_assoc] using htakes
    · rfl

/-! ### Variants of enumerations -/

/-- A variant without a value takes the gap behind it, in which a value is looked for. -/
theorem takes_enumVariant_name {name' g : Text} {u : CodeUnit} (hg : IsGap true g)
    (hname : IsName name') (hgap : IsGap true gap) (hu : u = 0x2C ∨ u = 0x7D) :
    Takes (room + 1) (n + 1) (call Rule.enumVariant) (g ++ (name' ++ gap)) (u :: rest)
      (· = ⟨name', none⟩) := by
  have hseparates : u.separates = true := by rcases hu with rfl | rfl <;> decide
  have hstop : u.startsGap true = false := by rcases hu with rfl | rfl <;> decide
  -- a comma or a brace is behind the name, so no value is looked for
  have hset : startsInitializer (u :: rest) = false :=
    startsInitializer_eq_false (by rcases hu with rfl | rfl <;> rfl)
  have hends : EndsExpr true 0 (gap ++ u :: rest) := endsExpr_separator hgap hseparates
  refine takes_call (Takes.bind (takes_gap hg ?_) fun _ _ => ?_)
  · rw [List.append_assoc]
    exact hname.startsOperand.avoids_startsGap true _
  · refine Takes.bind (Expression.takes_name hname hends.word) fun found hfound => ?_
    refine Takes.bind_done (takes_gap_sign (n := n + 1) hgap hstop) fun _ _ => ?_
    refine Takes.look_bind (takes_look (P := (· = false)) hset) fun found' hfound' => ?_
    rw [hfound, hfound']
    exact takes_pure rfl

theorem takes_enumVariant_value {name' g h h' : Text} {e : Expr} (hg : IsGap true g)
    (hname : IsName name') (hh : IsGap true h) (hh' : IsGap true h')
    (he : e.Written room true 0 s) (hends : EndsExpr true 0 rest) :
    Takes (room + 2) (n + 1) (call Rule.enumVariant)
      (g ++ (name' ++ (h ++ ("=" ++ (h' ++ s))))) rest (· = ⟨name', some e⟩) := by
  have hvalue : Takes (room + 1) (n + 1) Expression.expr s rest (· = e) := he.takes rfl hends
  -- a value never starts with `=`, so the sign is not the first half of `==`
  have hset : (h' ++ (s ++ rest)).Avoids (· == 0x3D) :=
    hh'.avoids_sign rfl (Phrase.avoids_of_written (by decide) he)
  refine takes_call (Takes.bind (takes_gap hg ?_) fun _ _ => ?_)
  · rw [List.append_assoc]
    exact hname.startsOperand.avoids_startsGap true _
  · refine Takes.bind (Expression.takes_name hname ?_) fun found hfound => ?_
    · rw [List.append_assoc]
      exact hh.endsWord rfl
    · refine Takes.bind (takes_gap (n := n + 1) hh rfl) fun _ _ => ?_
      refine Takes.look_bind (takes_look (P := (· = true)) ?_) fun found' hfound' => ?_
      · rw [List.append_assoc, List.append_assoc]
        exact startsInitializer_append hset
      · rw [hfound, hfound']
        refine Takes.bind (takes_expect "=") fun _ _ => ?_
        refine Takes.bind (takes_gap hh' he.avoids_gap) fun _ _ => ?_
        refine Takes.bind_done hvalue fun x hx => ?_
        rw [hx]
        exact takes_pure rfl

/-- A variant, with the gap before it; without a value the gap behind it is taken as well. -/
theorem takesToGap_enumVariant {v : EnumVariant} {g : Text} {u : CodeUnit} (hg : IsGap true g)
    (h : v.Written room s) (hgap : IsGap true gap) (hu : u = 0x2C ∨ u = 0x7D) :
    TakesToGap room (n + 1) (call Rule.enumVariant) (g ++ s) gap (u :: rest) (· = v) := by
  have hseparates : u.separates = true := by rcases hu with rfl | rfl <;> decide
  cases h with
  | name hname =>
    refine Takes.pastGap ?_
    rw [List.append_assoc]
    exact takes_enumVariant_name hg hname hgap hu
  | value hname hh hh' he =>
    exact (takes_enumVariant_value hg hname hh hh' he (endsExpr_separator hgap hseparates)).toGap

/-- The turn of the list of variants. -/
def variantTurn (found : List EnumVariant) : Grammar Rule (Next (List EnumVariant)) := do
  Grammar.gap
  if ← consume "," then
    Grammar.gap
    if ← check "\x7d" then return .done found
    else
      let variant ← call .enumVariant
      return .again (variant :: found)
  else return .done found

theorem variants_eq : variants = (do
    expect "\x7b"
    bracketed do
      let first ← call .enumVariant
      let all ← iterate variantTurn [first]
      Grammar.gap
      expect "\x7d"
      return all.reverse) := rfl

/-- Without a comma there is no further variant. -/
theorem takes_variantTurn_done {v : List EnumVariant} (hgap : IsGap true gap) :
    Takes room (n + 1) (variantTurn v) gap (0x7D :: rest) (· = .done v) := by
  refine Takes.bind_done (takes_gap_sign hgap (by decide)) fun _ _ => ?_
  refine Takes.look_bind (takes_consume_nothing rfl) fun comma hcomma => ?_
  rw [hcomma]
  exact takes_pure rfl

/-- Behind the last comma the brace may be closed. -/
theorem takes_variantTurn_comma {v : List EnumVariant} {g : Text} (hgap : IsGap true gap)
    (hg : IsGap true g) :
    Takes room (n + 1) (variantTurn v) (gap ++ ("," ++ g)) (0x7D :: rest) (· = .done v) := by
  refine Takes.bind (takes_gap_sign hgap (by decide)) fun _ _ => ?_
  refine Takes.bind (takes_consume ",") fun comma hcomma => ?_
  rw [hcomma]
  refine Takes.bind_done (takes_gap_sign hg (by decide)) fun _ _ => ?_
  refine Takes.look_bind (takes_check "\x7d") fun closer hcloser => ?_
  rw [hcloser]
  exact takes_pure rfl

theorem takes_variantTurn_again {found : List EnumVariant} {v : EnumVariant} {g : Text}
    (hgap : IsGap true gap) (hg : IsGap true g)
    (hstart : (s ++ rest).StartsWith CodeUnit.startsOperand)
    (h : Takes room (n + 1) (call Rule.enumVariant) s rest (· = v)) :
    Takes room (n + 1) (variantTurn found) (gap ++ ("," ++ (g ++ s))) rest
      (· = .again (v :: found)) := by
  refine Takes.bind (takes_gap_sign hgap (by decide)) fun _ _ => ?_
  refine Takes.bind (takes_consume ",") fun comma hcomma => ?_
  rw [hcomma]
  refine Takes.bind (takes_gap hg ?_) fun _ _ => ?_
  · exact hstart.avoids fun _ hu =>
      CodeUnit.startsOperand_eq_false_of_startsGap (Text.startsGap_true_of hu)
  · -- the next variant starts with a name, so the comma is not the last one
    have hcloser : List.isPrefixOf ("\x7d" : Text) (s ++ rest) = false :=
      Text.isPrefixOf_cons_eq_false (hstart.avoids_sign rfl)
    refine Takes.look_bind (takes_check "\x7d") fun closer hfound => ?_
    rw [hfound, hcloser]
    refine Takes.bind_done h fun w hw => ?_
    rw [hw]
    exact takes_pure rfl

/-- The first variant, and the turns that take the others, up to the closing brace. -/
theorem exists_loops_variants (n : Nat) (rest : Text) {vs : List EnumVariant} {g : Text}
    (hg : IsGap true g) (h : Text.Separated (EnumVariant.Written room) true vs s) :
    ∃ s₁ s₂ v more, vs = v :: more ∧ g ++ s = s₁ ++ s₂ ∧
      Takes room (n + 1) (call Rule.enumVariant) s₁ (s₂ ++ 0x7D :: rest) (· = v) ∧
      ∀ found, Loops room (n + 1) variantTurn s₂ (0x7D :: rest) (· = found)
        (· = more.reverse ++ found) := by
  -- a variant takes the gap behind it or leaves it to the turn that comes next, so the text is only
  -- split where the first variant is read
  induction h generalizing g with
  | @last x s g' hx hg' =>
    have hvariant : TakesToGap room (n + 1) (call Rule.enumVariant) (g ++ s) g' (0x7D :: rest)
        (· = x) := takesToGap_enumVariant hg hx hg' (.inr rfl)
    obtain ⟨taken, left, rfl, hleft, htakes⟩ := hvariant.exists_left hg'
    refine ⟨g ++ s ++ taken, left, x, [], rfl, ?_, htakes, fun found => ?_⟩
    · simp only [List.append_assoc]
    · exact loops_done fun y hy => (takes_variantTurn_done hleft).mono fun _ hv => ⟨y, hv, hy⟩
  | @lastComma x s g' g'' _ hx hg' hg'' =>
    have hvariant : TakesToGap room (n + 1) (call Rule.enumVariant) (g ++ s) g'
        ("," ++ (g'' ++ 0x7D :: rest)) (· = x) := takesToGap_enumVariant hg hx hg' (.inl rfl)
    obtain ⟨taken, left, rfl, hleft, htakes⟩ := hvariant.exists_left hg'
    refine ⟨g ++ s ++ taken, left ++ ("," ++ g''), x, [], rfl, ?_, ?_, fun found => ?_⟩
    · simp only [List.append_assoc]
    · simp only [List.append_assoc] at htakes ⊢
      exact htakes
    · exact loops_done fun y hy =>
        (takes_variantTurn_comma hleft hg'').mono fun _ hv => ⟨y, hv, hy⟩
  | @cons x xs s g' g'' t hx hg' hg'' hxs ih =>
    have hvariant : TakesToGap room (n + 1) (call Rule.enumVariant) (g ++ s) g'
        ("," ++ (g'' ++ (t ++ 0x7D :: rest))) (· = x) :=
      takesToGap_enumVariant hg hx hg' (.inl rfl)
    obtain ⟨taken, left, rfl, hleft, htakes⟩ := hvariant.exists_left hg'
    have hstart := startsWith_separated (fun _ _ => EnumVariant.Written.startsOperand) hxs
    obtain ⟨s₁, s₂, v, more, rfl, hsplit, hfirst, hloops⟩ := ih (Text.isGap_nil true)
    rw [List.nil_append] at hsplit
    subst hsplit
    refine ⟨g ++ s ++ taken, left ++ ("," ++ (g'' ++ s₁)) ++ s₂, x, v :: more, rfl, ?_, ?_,
      fun found => ?_⟩
    · simp only [List.append_assoc]
    · simp only [List.append_assoc] at htakes ⊢
      exact htakes
    · have hreverse : more.reverse ++ (v :: found) = (v :: more).reverse ++ found := by simp
      rw [← hreverse]
      have hne : left ++ (("," : Text) ++ (g'' ++ s₁)) ≠ [] :=
        List.append_ne_nil_of_right_ne_nil _ (List.cons_ne_nil 0x2C _)
      have hstart' : (s₁ ++ (s₂ ++ 0x7D :: rest)).StartsWith CodeUnit.startsOperand := by
        rw [← List.append_assoc]
        exact hstart.append _
      exact Loops.again (fun y hy => (takes_variantTurn_again hleft hg'' hstart' hfirst).mono
        fun _ hv => ⟨v :: y, hv, by rw [hy]⟩) hne (hloops (v :: found))

/-- All variants, with their braces. -/
theorem takes_variants {vs : List EnumVariant} {g : Text} (hg : IsGap true g)
    (h : Text.Separated (EnumVariant.Written room) true vs s) :
    Takes room n variants ("\x7b" ++ (g ++ (s ++ "\x7d"))) rest (· = vs) := by
  obtain ⟨s₁, s₂, v, more, rfl, hsplit, hfirst, hloops⟩ :=
    exists_loops_variants n rest hg h
  have hfirst' : Takes room (n + 1) (call Rule.enumVariant) s₁ ((s₂ ++ "\x7d") ++ rest)
      (· = v) := by
    rw [List.append_assoc]
    exact hfirst
  -- the gap in front of the first variant is taken by the variant itself
  rw [← List.append_assoc g, hsplit, List.append_assoc, variants_eq]
  refine Takes.bind (takes_expect "\x7b") fun _ _ => takes_bracketed ?_
  refine Takes.bind hfirst' fun first hv => ?_
  rw [hv]
  refine Takes.bind ((hloops [v]).takes rfl) fun all hall => ?_
  refine Takes.look_bind (takes_gap (g := []) (Text.isGap_nil true) rfl) fun _ _ => ?_
  refine Takes.bind_done (takes_expect "\x7d") fun _ _ => ?_
  rw [hall]
  exact takes_pure (by simp)

end Declaration

end GDScript
