import GDScript.Proofs.Script.Item

/-!
# Types, values and accessors

What may follow the name of a variable or a constant. A value is followed by the end of the item,
or by the word `setget` (`Text.EndsBinding`); what is missing at the end of a declaration is looked
for behind the gap there, which is then taken or left.
-/

namespace GDScript

open Grammar Declaration
open Text (IsGap IsName IsChain EndsExpr EndsChain)

/-! ### What follows a value -/

/-- Behind the gap stands what ends a type and a value. -/
structure Text.EndsBinding (gap t : Text) : Prop where
  isGap : IsGap false gap
  space : t.Avoids CodeUnit.isSpace
  colon : t.Avoids (· == 0x3A)
  set : t.Avoids (· == 0x3D)
  expr : EndsExpr false 0 (gap ++ t)

open Text (EndsBinding)

/-- What ends a value ends a type. -/
theorem Text.EndsExpr.chain {b : Bool} {level : Nat} {rest : Text} (h : EndsExpr b level rest)
    (hle : level ≤ 4) : EndsChain CodeUnit.dot rest := by
  refine ⟨h.word, fun r hr => ?_⟩
  have hmember := h.member hle
  rw [hr, Expression.startsMember] at hmember
  simpa using hmember

/-- Behind a gap a type name does not go on. -/
theorem Text.IsGap.endsChain {b : Bool} {g t : Text} (hg : IsGap b g)
    (hword : t.Avoids CodeUnit.isIdentifierChar) (hdot : t.Avoids (· == CodeUnit.dot)) :
    EndsChain CodeUnit.dot (g ++ t) := by
  refine ⟨hg.endsWord hword, fun r hr => ?_⟩
  have hother : (g ++ t).Avoids (· == CodeUnit.dot) := hg.avoids_sign rfl hdot
  rw [hr] at hother
  exact Bool.noConfusion hother

/-- The end of an item ends a type and a value. -/
theorem endsBinding_of_endsItem {g t : Text} (hg : IsGap false g)
    (ht : Statement.endsItem t = true) : EndsBinding g t where
  isGap := hg
  space := Statement.avoids_of_endsItem ht (by decide)
  colon := Statement.avoids_of_endsItem ht (by decide)
  set := Statement.avoids_of_endsItem ht (by decide)
  expr := Statement.endsExpr_of_endsItem hg ht

/-- The word `setget` behind a gap ends a type and a value. -/
theorem endsBinding_setget {g t : Text} (hg : IsGap false g) (hne : g ≠ []) :
    EndsBinding g (("setget" : Text) ++ t) where
  isGap := hg
  space := rfl
  colon := rfl
  set := rfl
  expr := endsExpr_gap hg rfl (fun h => absurd h hne) fun _ hk _ =>
    Spelling.find?_binaryTable_eq_none (t := ("setget" : Text) ++ t) rfl hk

/-- What stands behind the name of a variable does not go on with it. -/
theorem Typing.Written.avoids_isIdentifierChar {room : Nat} {typing : Typing}
    {value : Option Expr} {s rest : Text}
    (h : typing.Written room value s) (hrest : rest.Avoids CodeUnit.isIdentifierChar) :
    (s ++ rest).Avoids CodeUnit.isIdentifierChar := by
  have hsign : ∀ {g t : Text}, IsGap false g → (t.StartsWith fun u => !u.isIdentifierChar) →
      ((g ++ t) ++ rest).Avoids CodeUnit.isIdentifierChar := by
    intro g t hg ht
    rw [List.append_assoc]
    exact hg.endsWord ((ht.append rest).avoids (by simp))
  cases h with
  | missing => exact hrest
  | hint hg => exact hsign hg rfl
  | value hg => exact hsign hg rfl
  | hintValue hg => exact hsign hg rfl
  | inferred hg => exact hsign hg rfl

/-- What names accessors starts with the word. -/
theorem VarDecl.Accessors.exists_append {setter getter : Option Text} {s : Text}
    (h : VarDecl.Accessors setter getter s) : ∃ r, s = "setget" ++ r := by
  cases h <;> exact ⟨_, rfl⟩

namespace Declaration

open Expression (name)

variable {room n : Nat} {s rest gap t : Text}

/-! ### Values and types -/

/-- Where no sign is next, no value follows. -/
theorem startsInitializer_eq_false (h : rest.Avoids (· == 0x3D)) :
    startsInitializer rest = false := by
  rw [startsInitializer, show List.isPrefixOf ("=" : Text) rest = false from
    Text.isPrefixOf_cons_eq_false h, Bool.false_and]

/-- One sign that no other one follows is that of a value. -/
theorem startsInitializer_append (h : rest.Avoids (· == 0x3D)) :
    startsInitializer (("=" : Text) ++ rest) = true := by
  have hsecond : List.isPrefixOf ("=" : Text) rest = false := Text.isPrefixOf_cons_eq_false h
  show (true && !(List.isPrefixOf ("=" : Text) rest)) = true
  rw [hsecond]
  rfl

/-- A value behind its sign, with gaps around that. -/
theorem takes_initializer {e : Expr} {g g' : Text} (hg : IsGap false g) (hg' : IsGap false g')
    (hs : s.StartsWith CodeUnit.startsOperand)
    (he : Takes room n Expression.expr s rest (· = e)) :
    Takes room n initializer (g ++ ("=" ++ (g' ++ s))) rest (· = some e) := by
  -- behind the sign stands an operand, so it is not `==`
  have hset : (g' ++ (s ++ rest)).Avoids (· == 0x3D) :=
    hg'.avoids_sign rfl ((hs.append rest).avoids_sign rfl)
  have hspace := hs.avoids_startsGap false rest
  refine (takes_optional (P := (· = e)) ?_).mono fun v ⟨x, hv, hx⟩ => by rw [hv, hx]
  refine Takes.bind (takes_skipSpaces hg rfl) fun _ _ => ?_
  refine Takes.look_bind (takes_look (P := (· = true)) ?_) fun found hfound => ?_
  · simp only [List.append_assoc]
    exact startsInitializer_append hset
  · rw [hfound]
    refine Takes.bind (takes_expect "=") fun _ _ => ?_
    refine Takes.bind (takes_skipSpaces hg' hspace) fun _ _ => ?_
    exact Takes.bind_done he fun v hv => takes_pure ⟨v, rfl, hv⟩

/-- Where no sign follows the gap, the gap is left. -/
theorem takes_initializer_nothing (h : Text.Avoids (· == 0x3D) (rest.dropWhile CodeUnit.isSpace)) :
    Takes room n initializer [] rest (· = none) := by
  rw [← List.takeWhile_append_dropWhile (p := CodeUnit.isSpace) (l := rest)]
  refine takes_optional_nothing (Takes.bind_done (takes_skipSpaces ?_ ?_) fun _ _ => ?_)
  · exact fun u hu => Text.takeWhile_pos u hu
  · exact Text.avoids_dropWhile _ _
  · refine Takes.look_bind (takes_look (P := (· = false)) (startsInitializer_eq_false h))
      fun found hfound => ?_
    rw [hfound]
    exact takes_pure rfl

/-- Where the gap is known, it is left. -/
theorem takes_initializer_nothing_gap {g : Text} (hg : IsGap false g)
    (hspace : rest.Avoids CodeUnit.isSpace) (hset : rest.Avoids (· == 0x3D)) :
    Takes room n initializer [] (g ++ rest) (· = none) := by
  refine takes_initializer_nothing ?_
  rwa [Text.dropWhile_append hg hspace]

/-- A name with members is a type. -/
theorem takes_typeHint {hint : Text} (hhint : IsChain CodeUnit.dot hint)
    (hrest : rest.EndsChain CodeUnit.dot) :
    Takes room n Expression.typeHint hint rest (· = hint) :=
  takes_require (dottedIdentifier_append hhint hrest)

/-- A type behind a colon. -/
theorem takes_annotation {g hint : Text} (hg : IsGap false g) (hhint : IsChain CodeUnit.dot hint)
    (hrest : rest.EndsChain CodeUnit.dot) :
    Takes room n annotation (":" ++ (g ++ hint)) rest (· = some hint) := by
  refine Takes.bind (takes_consume ":") fun found hfound => ?_
  rw [hfound]
  have hspace := hhint.startsOperand.avoids_startsGap false rest
  refine Takes.bind (takes_skipSpaces hg hspace) fun _ _ => ?_
  refine Takes.bind_done (takes_typeHint hhint hrest) fun found hfound => ?_
  rw [hfound]
  exact takes_pure rfl

/-- Without a colon there is no type. -/
theorem takes_annotation_nothing (h : rest.Avoids (· == 0x3A)) :
    Takes room n annotation [] rest (· = none) := by
  refine Takes.look_bind (takes_consume_nothing (Text.isPrefixOf_cons_eq_false h))
    fun found hfound => ?_
  rw [hfound]
  exact takes_pure rfl

/-- A type that may be missing and a value that may be missing, in turn. -/
theorem takes_binding_declared {hint : Option Text} {value : Option Expr} {g : Text}
    (hg : IsGap false g) (hspace : (s ++ (t ++ rest)).Avoids CodeUnit.isSpace)
    (hinferred : List.isPrefixOf (":=" : Text) (s ++ (t ++ rest)) = false)
    (hhint' : Takes room n annotation s (t ++ rest) (· = hint))
    (hinitializer : Takes room n initializer t rest (· = value)) :
    Takes room n binding (g ++ (s ++ t)) rest (· = (.declared hint, value)) := by
  -- the colon of a type must not be taken for that of `:=`
  rw [← List.append_assoc] at hspace hinferred
  refine Takes.bind (takes_skipSpaces hg hspace) fun _ _ => ?_
  refine Takes.look_bind (takes_consume_nothing hinferred) fun found hfound => ?_
  rw [hfound]
  refine Takes.bind hhint' fun found hfound => ?_
  refine Takes.bind_done hinitializer fun found' hfound' => ?_
  rw [hfound, hfound']
  exact takes_pure rfl

/-- A value behind `:=`, from which the type is inferred. -/
theorem takes_binding_inferred {e : Expr} {g g' : Text} (hg : IsGap false g) (hg' : IsGap false g')
    (hs : s.StartsWith CodeUnit.startsOperand)
    (he : Takes room n Expression.expr s rest (· = e)) :
    Takes room n binding (g ++ (":=" ++ (g' ++ s))) rest (· = (.inferred, some e)) := by
  refine Takes.bind (takes_skipSpaces hg rfl) fun _ _ => ?_
  refine Takes.bind (takes_consume ":=") fun found hfound => ?_
  rw [hfound]
  refine Takes.bind (takes_skipSpaces hg' (hs.avoids_startsGap false rest)) fun _ _ => ?_
  refine Takes.bind_done he fun found hfound => ?_
  rw [hfound]
  exact takes_pure rfl

/-- A colon that `=` does not follow. -/
theorem isPrefixOf_inferred_eq_false {b : Bool} {g : Text} (hg : IsGap b g)
    (hs : s.StartsWith CodeUnit.startsOperand) :
    List.isPrefixOf (":=" : Text) ((":" : Text) ++ (g ++ s) ++ rest) = false := by
  have hset : (g ++ (s ++ rest)).Avoids (· == 0x3D) :=
    hg.avoids_sign rfl ((hs.append rest).avoids_sign rfl)
  have hsecond : List.isPrefixOf ("=" : Text) (g ++ (s ++ rest)) = false :=
    Text.isPrefixOf_cons_eq_false hset
  rw [List.append_assoc, List.append_assoc]
  show (true && List.isPrefixOf ("=" : Text) (g ++ (s ++ rest))) = false
  rw [hsecond]
  rfl

/-- How a type and a value are given; where both are missing, the gap is taken. -/
theorem takesToGap_binding {typing : Typing} {value : Option Expr}
    (h : typing.Written room value s) (hends : EndsBinding gap t) :
    TakesToGap room 0 binding s gap t (· = (typing, value)) := by
  have hchain : (gap ++ t).EndsChain CodeUnit.dot := hends.expr.chain (by omega)
  cases h with
  | missing =>
    -- the gap is taken before the colon is looked for, so none is left before the missing value
    have hinitializer : Takes room 0 initializer [] t (· = none) :=
      takes_initializer_nothing_gap (Text.isGap_nil false) hends.space hends.set
    have htakes := takes_binding_declared (s := []) (t := []) hends.isGap hends.space
      (Text.isPrefixOf_cons_eq_false hends.colon) (takes_annotation_nothing hends.colon) hinitializer
    rw [List.append_nil, List.append_nil] at htakes
    exact htakes.pastGap
  | @hint room g g' hint hg hg' hhint =>
    have hinitializer : Takes room 0 initializer [] (gap ++ t) (· = none) :=
      takes_initializer_nothing_gap hends.isGap hends.space hends.set
    have htakes := takes_binding_declared (t := []) hg ?_
      (isPrefixOf_inferred_eq_false hg' hhint.startsOperand) ( takes_annotation hg' hhint hchain)
      hinitializer
    · rw [List.append_nil] at htakes
      exact htakes.toGap
    · rfl
  | @value room g g' s e hg hg' he =>
    have hvalue := Expr.Written.takes (n := 0) he rfl hends.expr
    have hinitializer := takes_initializer (Text.isGap_nil false) hg' he.starts.1 hvalue
    have htakes := takes_binding_declared (s := []) hg ?_ ?_ (takes_annotation_nothing ?_)
      hinitializer
    · exact htakes.toGap
    · rfl
    · rfl
    · rfl
  | @hintValue room g g' hint h h' s e hg hg' hhint hh hh' he =>
    have hvalue := Expr.Written.takes (n := 0) he rfl hends.expr
    have hinitializer := takes_initializer hh hh' he.starts.1 hvalue
    have hends' : EndsChain CodeUnit.dot ((h ++ ("=" ++ (h' ++ s))) ++ (gap ++ t)) := by
      rw [List.append_assoc]
      exact hh.endsChain rfl rfl
    have htakes := takes_binding_declared hg ?_
      (isPrefixOf_inferred_eq_false hg' hhint.startsOperand) ( takes_annotation hg' hhint hends')
      hinitializer
    · simp only [List.append_assoc] at htakes
      exact htakes.toGap
    · rfl
  | inferred hg hg' he =>
    have hvalue := Expr.Written.takes (n := 0) he rfl hends.expr
    exact (takes_binding_inferred hg hg' he.starts.1 hvalue).toGap

/-! ### Types behind a sign or a word -/

/-- A type behind a sign or a word, with the gap behind it. -/
theorem takes_typeAfter {reader : Reader Bool} {h hint h' : Text} (hh : IsGap false h)
    (hhint : IsChain CodeUnit.dot hint) (hh' : IsGap false h')
    (hread : Takes room n (read reader : Grammar Rule Bool) s (h ++ (hint ++ h') ++ rest) (· = true))
    (hspace : rest.Avoids CodeUnit.isSpace) (hword : rest.Avoids CodeUnit.isIdentifierChar)
    (hdot : rest.Avoids (· == CodeUnit.dot)) :
    Takes room n (typeAfter reader) (s ++ (h ++ (hint ++ h'))) rest (· = some hint) := by
  refine Takes.bind hread fun found hfound => ?_
  rw [hfound]
  refine Takes.bind (takes_skipSpaces hh ?_) fun _ _ => ?_
  · rw [List.append_assoc]
    exact hhint.startsOperand.avoids_startsGap false _
  · refine Takes.bind (takes_typeHint hhint (hh'.endsChain hword hdot)) fun v hv => ?_
    refine Takes.bind_done (takes_skipSpaces hh' hspace) fun _ _ => ?_
    rw [hv]
    exact takes_pure rfl

/-- Without the sign or the word there is no type. -/
theorem takes_typeAfter_nothing {reader : Reader Bool}
    (hread : Takes room n (read reader : Grammar Rule Bool) [] rest (· = false)) :
    Takes room n (typeAfter reader) [] rest (· = none) := by
  refine Takes.look_bind hread fun found hfound => ?_
  rw [hfound]
  exact takes_pure rfl

/-! ### The functions behind `setget` -/

/-- At the end of an item no accessors are named. -/
theorem takes_setget_nothing (hg : IsGap false gap) (ht : Statement.endsItem t = true) :
    Takes room n setget [] (gap ++ t) (· = none) := by
  have hword : Text.startsWord "setget" t = false :=
    Text.startsWord_eq_false (by decide) (Statement.avoids_of_endsItem ht (by decide))
  have hspace : t.Avoids CodeUnit.isSpace := Statement.avoids_of_endsItem ht (by decide)
  refine takes_optional_nothing (Takes.bind_done (takes_skipSpaces hg hspace) fun _ _ => ?_)
  refine Takes.look_bind (takes_keyword_nothing hword) fun found hfound => ?_
  rw [hfound]
  exact takes_pure rfl

/-- The part of `accessors` before the comma. -/
def setter : Grammar Rule (Option Text) := do
  if ← check "," then return none
  else
    let found ← name
    skipSpaces
    return some found

/-- The name of the setter, with the gap behind it. -/
theorem takes_setter {g : Text} (hs : IsName s) (hg : IsGap false g)
    (hrest : rest.Avoids CodeUnit.isSpace) (hword : (g ++ rest).Avoids CodeUnit.isIdentifierChar) :
    Takes room n setter (s ++ g) rest (· = some s) := by
  have hcomma : List.isPrefixOf ("," : Text) ((s ++ g) ++ rest) = false := by
    refine Text.isPrefixOf_cons_eq_false ?_
    rw [List.append_assoc]
    exact (hs.startsOperand.append _).avoids_sign rfl
  refine Takes.look_bind (takes_check ",") fun found hfound => ?_
  rw [hfound, hcomma]
  refine Takes.bind (Expression.takes_name hs hword) fun found hfound => ?_
  refine Takes.bind_done (takes_skipSpaces hg hrest) fun _ _ => ?_
  rw [hfound]
  exact takes_pure rfl

/-- A comma at once means that there is no setter. -/
theorem takes_setter_nothing : Takes room n setter [] (("," : Text) ++ rest) (· = none) := by
  refine Takes.look_bind (takes_check ",") fun found hfound => ?_
  rw [hfound, List.nil_append, Text.isPrefixOf_append]
  exact takes_pure rfl

theorem accessors_eq : accessors = (do
    skipSpaces
    let found ← setter
    if ← consume "," then
      skipSpaces
      let getter ← name
      return (found, some getter)
    else return (found, none)) := rfl

/-- Only the setter is named; the gap behind it is taken, since a comma may follow. -/
theorem takes_accessors_setter {g setter : Text} (hg : IsGap false g) (hsetter : IsName setter)
    (hgap : IsGap false gap) (ht : Statement.endsItem t = true) :
    Takes room n accessors (g ++ (setter ++ gap)) t (· = (some setter, none)) := by
  -- no getter follows, so no comma is behind the gap
  have hcomma : List.isPrefixOf ("," : Text) t = false :=
    Text.isPrefixOf_cons_eq_false (Statement.avoids_of_endsItem ht (by decide))
  have hspace : t.Avoids CodeUnit.isSpace := Statement.avoids_of_endsItem ht (by decide)
  have hrest : (gap ++ t).Avoids CodeUnit.isIdentifierChar :=
    Statement.avoids_isIdentifierChar_of_endsItem hgap ht
  rw [accessors_eq]
  refine Takes.bind (takes_skipSpaces hg ?_) fun _ _ => ?_
  · rw [List.append_assoc]
    exact hsetter.startsOperand.avoids_startsGap false _
  · refine Takes.bind_done (takes_setter hsetter hgap hspace hrest) fun found hfound => ?_
    refine Takes.look_bind (takes_consume_nothing hcomma) fun comma hcomma' => ?_
    rw [hcomma', hfound]
    exact takes_pure rfl

/-- Both functions, of which the first one may be missing. -/
theorem takes_accessors_getter {setter? : Option Text} {g h getter : Text} (hg : IsGap false g)
    (hspace : (s ++ (("," : Text) ++ (h ++ getter ++ rest))).Avoids CodeUnit.isSpace)
    (hs : Takes room n setter s ("," ++ (h ++ getter ++ rest)) (· = setter?))
    (hh : IsGap false h) (hgetter : IsName getter) (hrest : rest.Avoids CodeUnit.isIdentifierChar) :
    Takes room n accessors (g ++ (s ++ ("," ++ (h ++ getter)))) rest
      (· = (setter?, some getter)) := by
  rw [accessors_eq]
  refine Takes.bind (takes_skipSpaces hg (by simpa only [List.append_assoc] using hspace))
    fun _ _ => ?_
  refine Takes.bind (by simpa only [List.append_assoc] using hs) fun found hfound => ?_
  refine Takes.bind (takes_consume ",") fun comma hcomma => ?_
  -- the setter before the comma may be missing
  rw [hcomma, hfound]
  refine Takes.bind (takes_skipSpaces hh (hgetter.startsOperand.avoids_startsGap false rest))
    fun _ _ => ?_
  refine Takes.bind_done (Expression.takes_name hgetter hrest) fun found hfound => ?_
  rw [hfound]
  exact takes_pure rfl

/-- `setget` and what follows it, behind a gap. -/
theorem takes_setget {found : Option Text × Option Text} {g : Text} (hg : IsGap false g)
    (hword : (s ++ rest).Avoids CodeUnit.isIdentifierChar)
    (h : Takes room n accessors s rest (· = found)) :
    Takes room n setget (g ++ ("setget" ++ s)) rest (· = some found) := by
  refine (takes_optional (P := (· = found)) ?_).mono fun v ⟨x, hv, hx⟩ => by rw [hv, hx]
  refine Takes.bind (takes_skipSpaces hg rfl) fun _ _ => ?_
  refine Takes.bind (takes_keyword hword) fun there hthere => ?_
  rw [hthere]
  exact Takes.bind_done h fun v hv => takes_pure ⟨v, rfl, hv⟩

/-- Where only the setter is named, the gap behind it is taken. -/
theorem takesToGap_setget {setter? getter : Option Text} {g : Text} (hg : IsGap false g)
    (h : VarDecl.Accessors setter? getter s) (hgap : IsGap false gap)
    (ht : Statement.endsItem t = true) :
    TakesToGap room n setget (g ++ s) gap t (· = some (setter?, getter)) := by
  -- the last name ends in front of the gap or of what ends the item
  have hrest : (gap ++ t).Avoids CodeUnit.isIdentifierChar :=
    Statement.avoids_isIdentifierChar_of_endsItem hgap ht
  cases h with
  | @setter g' name hg' hne hs =>
    have haccessors : Takes room n accessors (g' ++ (name ++ gap)) t (· = (some name, none)) :=
      takes_accessors_setter hg' hs hgap ht
    have htakes := takes_setget hg ?_ haccessors
    · refine Takes.pastGap ?_
      simpa only [List.append_assoc] using htakes
    · rw [List.append_assoc]
      exact hg'.avoids_isIdentifierChar hne _
  | @getter g' h name hg' hh hgetter =>
    refine (takes_setget hg ?_ (takes_accessors_getter (s := []) hg' ?_ takes_setter_nothing hh
      hgetter hrest)).toGap
    · rw [List.append_assoc]
      exact hg'.endsWord rfl
    · rfl
  | @both g' name h h' name' hg' hne hs hh hh' hgetter =>
    have hsetter : Takes room n setter (name ++ h) ("," ++ (h' ++ name' ++ (gap ++ t)))
        (· = some name) :=
      takes_setter hs hh rfl (hh.endsWord rfl)
    have htakes := takes_setget hg ?_ (takes_accessors_getter hg' ?_ hsetter hh' hgetter hrest)
    · refine Takes.toGap ?_
      simpa only [List.append_assoc] using htakes
    · rw [List.append_assoc]
      exact hg'.avoids_isIdentifierChar hne _
    · rw [List.append_assoc]
      exact hs.startsOperand.avoids_startsGap false _

end Declaration

end GDScript
