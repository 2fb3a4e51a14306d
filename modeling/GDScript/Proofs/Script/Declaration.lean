import GDScript.Proofs.Script.Alternative
import GDScript.Proofs.Script.Listing

/-!
# Declarations on one line

Each rule for a declaration without a block takes every text that spells one. The texts are those
of `Decl.Written`, and every declaration opens with a word that none of the rules before its own
accepts (`Declaration.takesToGap_decl_of_rule`).
-/

namespace GDScript

open Grammar Declaration
open Text (IsGap IsName IsChain EndsExpr EndsChain EndsBinding)

namespace Declaration

open Expression (name)

variable {room n : Nat} {s rest gap t : Text}

/-! ### Variables and constants -/

theorem takes_varDecl {modifier : Option VarModifier} {m g name' : Text} {typing : Typing}
    {value : Option Expr} {accessors? : Option (Option Text × Option Text)} {u : Text}
    (hmodifier : Text.Modified VarModifier.word modifier m) (hg : IsGap false g) (hne : g ≠ [])
    (hname : IsName name') (hword : (s ++ (u ++ rest)).Avoids CodeUnit.isIdentifierChar)
    (hbinding : Takes room n binding s (u ++ rest) (· = (typing, value)))
    (hsetget : Takes room n setget u rest (· = accessors?)) :
    Takes room n varDecl (m ++ ("var" ++ (g ++ (name' ++ (s ++ u))))) rest
      (· = .varDecl ⟨modifier, name', typing, value, (accessors?.getD (none, none)).1,
        (accessors?.getD (none, none)).2⟩) := by
  have hvar : ((g ++ (name' ++ (s ++ u))) ++ rest).Avoids CodeUnit.isIdentifierChar := by
    rw [List.append_assoc]
    exact hg.avoids_isIdentifierChar hne _
  have hopens : Text.Opens "var" (("var" : Text) ++ (g ++ (name' ++ (s ++ u))) ++ rest) :=
    ⟨_, List.append_assoc _ _ _, hvar⟩
  -- no modifier is spelled `var`, so without one the reader goes on at the keyword
  have hwords : ∀ m : VarModifier, IsName m.word ∧ ("var" : Text) ≠ m.word := by
    intro m
    cases m <;> exact ⟨by decide +kernel, by decide⟩
  refine takes_modified hmodifier mem_all_var (fun c => (hwords c).1) ?_ rfl
    (fun c => hopens.startsWord_eq_false (by decide) (hwords c).1 (hwords c).2) ?_
  · intro c c'
    cases c <;> cases c' <;> decide
  · refine Takes.bind (takes_expectKeyword hvar) fun _ _ => ?_
    refine Takes.bind (takes_skipSpaces hg ?_) fun _ _ => ?_
    · rw [List.append_assoc]
      exact hname.startsOperand.avoids_startsGap false _
    · refine Takes.bind (Expression.takes_name hname ?_) fun found hfound => ?_
      · rwa [List.append_assoc]
      · refine Takes.bind hbinding ?_
        rintro _ rfl
        refine Takes.bind_done hsetget fun names hnames => ?_
        rw [hfound, hnames]
        exact takes_pure rfl

/-- A word, a gap and a name, of which something is made. -/
theorem takes_keyword_name {α : Type} {word g name' : Text} {f : Text → Grammar Rule α}
    {P : α → Prop} (hg : IsGap false g) (hne : g ≠ []) (hname : IsName name')
    (hword : (s ++ rest).Avoids CodeUnit.isIdentifierChar) (hf : Takes room n (f name') s rest P) :
    Takes room n (do
      expectKeyword word
      skipSpaces
      let found ← name
      f found) (word ++ (g ++ (name' ++ s))) rest P := by
  refine Takes.bind (takes_expectKeyword ?_) fun _ _ => ?_
  · rw [List.append_assoc]
    exact hg.avoids_isIdentifierChar hne _
  · refine Takes.bind (takes_skipSpaces hg ?_) fun _ _ => ?_
    · rw [List.append_assoc]
      exact hname.startsOperand.avoids_startsGap false _
    · refine Takes.bind (Expression.takes_name hname hword) fun found hfound => ?_
      rwa [hfound]

theorem takes_constDecl {g name' : Text} {typing : Typing} {e : Expr} (hg : IsGap false g)
    (hne : g ≠ []) (hname : IsName name') (hword : (s ++ rest).Avoids CodeUnit.isIdentifierChar)
    (hbinding : Takes room n binding s rest (· = (typing, some e))) :
    Takes room n constDecl ("const" ++ (g ++ (name' ++ s))) rest
      (· = .constDecl ⟨name', typing, e⟩) := by
  refine takes_keyword_name hg hne hname hword (Takes.bind_done hbinding ?_)
  rintro _ rfl
  exact takes_pure rfl

/-- A constant; where the value comes last, the gap behind it is taken or left. -/
theorem takesToGap_constDecl {g name' : Text} {typing : Typing} {e : Expr} (hg : IsGap false g)
    (hne : g ≠ []) (hname : IsName name') (htyping : typing.Written room (some e) s)
    (hends : EndsBinding gap t) :
    TakesToGap room 0 constDecl ("const" ++ (g ++ (name' ++ s))) gap t
      (· = .constDecl ⟨name', typing, e⟩) := by
  refine (takesToGap_binding htyping hends).lift hends.isGap fun taken left hsplit _ hb => ?_
  have hstop : (s ++ taken ++ (left ++ t)).Avoids CodeUnit.isIdentifierChar := by
    rw [List.append_assoc, ← List.append_assoc taken, ← hsplit]
    exact htyping.avoids_isIdentifierChar hends.expr.word
  have htakes := takes_constDecl hg hne hname hstop hb
  simp only [List.append_assoc] at htakes ⊢
  exact htakes

/-- A variable without accessors, which are looked for behind the gap that the value leaves. -/
theorem takesToGap_varDecl {modifier : Option VarModifier} {m g name' : Text} {typing : Typing}
    {value : Option Expr} (hmodifier : Text.Modified VarModifier.word modifier m)
    (hg : IsGap false g) (hne : g ≠ []) (hname : IsName name')
    (htyping : typing.Written room value s) (hgap : IsGap false gap)
    (ht : Statement.endsItem t = true) :
    TakesToGap room 0 varDecl (m ++ ("var" ++ (g ++ (name' ++ s)))) gap t
      (· = .varDecl ⟨modifier, name', typing, value, none, none⟩) := by
  have hends : EndsBinding gap t := endsBinding_of_endsItem hgap ht
  -- the binding may take the spaces behind it; what it leaves of the gap is no accessor
  refine (takesToGap_binding htyping hends).lift hgap fun taken left hsplit hleft hb => ?_
  have hstop : (s ++ taken ++ (left ++ t)).Avoids CodeUnit.isIdentifierChar := by
    rw [List.append_assoc, ← List.append_assoc taken, ← hsplit]
    exact htyping.avoids_isIdentifierChar hends.expr.word
  have htakes := takes_varDecl (u := []) hmodifier hg hne hname hstop hb
    (takes_setget_nothing hleft ht)
  simp only [List.append_assoc, List.append_nil] at htakes ⊢
  exact htakes

/-- A variable with accessors: the gap before `setget` is shared between the value and them. -/
theorem takesToGap_varDecl_setget {modifier : Option VarModifier} {m g name' g' t' : Text}
    {typing : Typing} {value : Option Expr} {setter? getter : Option Text}
    (hmodifier : Text.Modified VarModifier.word modifier m) (hg : IsGap false g) (hne : g ≠ [])
    (hname : IsName name') (htyping : typing.Written room value s) (hg' : IsGap false g')
    (hne' : g' ≠ []) (haccessors : VarDecl.Accessors setter? getter t') (hgap : IsGap false gap)
    (ht : Statement.endsItem t = true) :
    TakesToGap room 0 varDecl (m ++ ("var" ++ (g ++ (name' ++ (s ++ (g' ++ t')))))) gap t
      (· = .varDecl ⟨modifier, name', typing, value, setter?, getter⟩) := by
  obtain ⟨r, hr⟩ := haccessors.exists_append
  have hbinding := takesToGap_binding htyping (endsBinding_setget (t := r ++ (gap ++ t)) hg' hne')
  rw [← List.append_assoc ("setget" : Text), ← hr] at hbinding
  -- the value takes the first part of the gap, and `setget` is found behind the other one
  obtain ⟨taken', left', hsplit', hleft', hb⟩ := hbinding.exists_left hg'
  have hsetget : TakesToGap room 0 setget (left' ++ t') gap t (· = some (setter?, getter)) :=
    takesToGap_setget hleft' haccessors hgap ht
  refine hsetget.lift hgap fun taken left hsplit _ hs => ?_
  have hrest : left' ++ (t' ++ (gap ++ t)) = (left' ++ t' ++ taken) ++ (left ++ t) := by
    simp only [hsplit, List.append_assoc]
  have hstop : (s ++ taken' ++ ((left' ++ t' ++ taken) ++ (left ++ t))).Avoids
      CodeUnit.isIdentifierChar := by
    rw [← hrest, List.append_assoc, ← List.append_assoc taken', ← hsplit']
    exact htyping.avoids_isIdentifierChar (hg'.avoids_isIdentifierChar hne' _)
  rw [hrest] at hb
  have htakes := takes_varDecl hmodifier hg hne hname hstop hb hs
  simp only [List.append_assoc, hsplit'] at htakes ⊢
  exact htakes

/-! ### The header of a script, signals -/

theorem takes_classNameDecl {g name' : Text} (hg : IsGap false g) (hne : g ≠ [])
    (hname : IsName name') (hrest : rest.Avoids CodeUnit.isIdentifierChar) :
    Takes room n classNameDecl ("class_name" ++ (g ++ name')) rest (· = .classNameDecl name') := by
  have htakes : Takes room n classNameDecl (("class_name" : Text) ++ (g ++ (name' ++ []))) rest
      (· = .classNameDecl name') := takes_keyword_name (s := []) hg hne hname hrest (takes_pure rfl)
  rwa [List.append_nil] at htakes

theorem takes_extendsDecl_path {g : Text} {literal : StringLiteral} (hg : IsGap false g)
    (h : literal.IsValid) :
    Takes room n extendsDecl ("extends" ++ (g ++ literal.write)) rest
      (· = .extendsDecl (.path literal.body)) := by
  have hquote : literal.write.StartsWith CodeUnit.isQuote := by
    cases hq : literal.quote <;> simp [StringLiteral.write, hq] <;> rfl
  -- a quote is neither a space nor part of a word
  have hother : ∀ {p : CodeUnit → Bool}, p 0x22 = false → p 0x27 = false →
      (literal.write ++ rest).Avoids p := by
    intro p hdouble hsingle
    refine (hquote.append rest).avoids fun u hu => ?_
    rw [← Bool.not_eq_true]
    intro hisQuote
    simp only [CodeUnit.isQuote, Bool.or_eq_true, beq_iff_eq] at hisQuote
    rcases hisQuote with rfl | rfl
    · exact Bool.noConfusion (hdouble.symm.trans hu)
    · exact Bool.noConfusion (hsingle.symm.trans hu)
  refine Takes.bind (takes_expectKeyword ?_) fun _ _ => ?_
  · rw [List.append_assoc]
    exact hg.endsWord (hother (by decide) (by decide))
  · refine Takes.bind (takes_skipSpaces hg (hother (by decide) (by decide))) fun _ _ => ?_
    refine Takes.bind_done (takes_read (P := (· = some literal)) (Reader.string_append h rest) rfl)
      fun found hfound => ?_
    rw [hfound]
    exact takes_pure rfl

theorem takes_extendsDecl_name {g name' : Text} (hg : IsGap false g) (hne : g ≠ [])
    (hname : IsName name') (hrest : rest.Avoids CodeUnit.isIdentifierChar) :
    Takes room n extendsDecl ("extends" ++ (g ++ name')) rest
      (· = .extendsDecl (.name name')) := by
  -- a name starts without a quote, so the reader of paths takes nothing
  have hstring : Reader.string (name' ++ rest) = .took none 0 :=
    Reader.string_eq_none (Text.avoids_isQuote_of_startsName (Text.startsName_append hname.1))
  refine Takes.bind (takes_expectKeyword ?_) fun _ _ => ?_
  · rw [List.append_assoc]
    exact hg.avoids_isIdentifierChar hne _
  · refine Takes.bind (takes_skipSpaces hg (hname.startsOperand.avoids_startsGap false _))
      fun _ _ => ?_
    refine Takes.look_bind (takes_read (P := (· = none)) hstring rfl) fun found hfound => ?_
    rw [hfound]
    refine Takes.bind_done (Expression.takes_name hname hrest) fun found hfound => ?_
    rw [hfound]
    exact takes_pure rfl

theorem takes_signalParams_nothing (hg : IsGap false gap) (ht : Statement.endsItem t = true) :
    Takes room n signalParams [] (gap ++ t) (· = none) := by
  have hopen : List.isPrefixOf ("(" : Text) t = false :=
    Text.isPrefixOf_cons_eq_false (Statement.avoids_of_endsItem ht (by decide))
  have hspace : t.Avoids CodeUnit.isSpace := Statement.avoids_of_endsItem ht (by decide)
  refine takes_optional_nothing (Takes.bind_done (takes_skipSpaces hg hspace) fun _ _ => ?_)
  refine Takes.look_bind (takes_check "(") fun found hfound => ?_
  rw [hfound, List.nil_append, hopen]
  exact takes_pure rfl

theorem takes_signalParams {g : Text} {params : List Text} (hg : IsGap false g)
    (h : Takes room n (parenthesized name) ("(" ++ s) rest (· = params)) :
    Takes room n signalParams (g ++ ("(" ++ s)) rest (· = some params) := by
  refine (takes_optional (P := (· = params)) ?_).mono fun v ⟨x, hv, hx⟩ => by rw [hv, hx]
  refine Takes.bind (takes_skipSpaces hg rfl) fun _ _ => ?_
  refine Takes.look_bind (takes_check "(") fun found hfound => ?_
  rw [hfound, List.append_assoc, Text.isPrefixOf_append]
  exact Takes.bind_done h fun v hv => takes_pure ⟨v, rfl, hv⟩

/-- A signal, with what follows its name. -/
theorem takes_signalDecl {g name' : Text} {params : Option (List Text)} (hg : IsGap false g)
    (hne : g ≠ []) (hname : IsName name') (hword : (s ++ rest).Avoids CodeUnit.isIdentifierChar)
    (hparams : Takes room n signalParams s rest (· = params)) :
    Takes room n signalDecl ("signal" ++ (g ++ (name' ++ s))) rest
      (· = .signalDecl name' (params.getD [])) := by
  refine takes_keyword_name hg hne hname hword (Takes.bind_done hparams ?_)
  rintro _ rfl
  exact takes_pure rfl

theorem takes_param {name' g : Text} {u : CodeUnit} (hname : IsName name') (hg : IsGap true g)
    (hu : u = 0x2C ∨ u = 0x29) : Takes room n name name' (g ++ u :: rest) (· = name') := by
  refine Expression.takes_name hname (hg.endsWord ?_)
  rcases hu with rfl | rfl <;> rfl

theorem takes_signalDecl_params {g name' g' : Text} {params : List Text} (hg : IsGap false g)
    (hne : g ≠ []) (hname : IsName name') (hg' : IsGap false g')
    (hparams : Text.Parenthesized (fun x s => IsName x ∧ s = x) params s) :
    Takes room n signalDecl ("signal" ++ (g ++ (name' ++ (g' ++ s)))) rest
      (· = .signalDecl name' params) := by
  have hlist : Takes room n (parenthesized name) s rest (· = params) :=
    takes_parenthesized_written (fun x s (hx : IsName x ∧ s = x) => hx.2 ▸ hx.1.startsOperand)
      (fun x s (hx : IsName x ∧ s = x) g u rest hg hu => by
        rw [hx.2]
        exact takes_param hx.1 hg hu) hparams
  obtain ⟨r, rfl⟩ : ∃ r, s = "(" ++ r := by cases hparams <;> exact ⟨_, rfl⟩
  refine takes_signalDecl hg hne hname ?_ (takes_signalParams hg' hlist)
  rw [List.append_assoc]
  exact hg'.endsWord rfl

/-! ### Enumerations -/

/-- The name of an enumeration, which may be missing. -/
def givenName : Grammar Rule (Option Text) := do
  if ← check "\x7b" then return none
  else
    let given ← name
    return some given

theorem takes_givenName_nothing :
    Takes room n givenName [] (("\x7b" : Text) ++ rest) (· = none) := by
  refine Takes.look_bind (takes_check "\x7b") fun found hfound => ?_
  rw [hfound, List.nil_append, Text.isPrefixOf_append]
  exact takes_pure rfl

theorem takes_givenName {name' : Text} (hname : IsName name')
    (hrest : rest.Avoids CodeUnit.isIdentifierChar) :
    Takes room n givenName name' rest (· = some name') := by
  have hother : List.isPrefixOf ("\x7b" : Text) (name' ++ rest) = false :=
    Text.isPrefixOf_cons_eq_false ((Text.StartsWith.append hname.1 _).avoids_sign rfl)
  refine Takes.look_bind (takes_check "\x7b") fun found hfound => ?_
  rw [hfound, hother]
  refine Takes.bind_done (Expression.takes_name hname hrest) fun v hv => ?_
  rw [hv]
  exact takes_pure rfl

theorem enumDecl_eq : enumDecl = (do
    expectKeyword "enum"
    skipSpaces
    let found ← givenName
    skipSpaces
    let all ← variants
    return .enumDecl found all) := rfl

theorem takes_enumDecl {found : Option Text} {vs : List EnumVariant} {g g' : Text}
    (hg : IsGap false g) (hg' : IsGap false g')
    (hspace : (s ++ (g' ++ (t ++ rest))).Avoids CodeUnit.isSpace)
    (hword : (g ++ (s ++ (g' ++ (t ++ rest)))).Avoids CodeUnit.isIdentifierChar)
    (hfound : Takes room n givenName s (g' ++ (t ++ rest)) (· = found))
    (ht : t.Avoids CodeUnit.isSpace) (hne : t ≠ [])
    (hvariants : Takes room n variants t rest (· = vs)) :
    Takes room n enumDecl ("enum" ++ (g ++ (s ++ (g' ++ t)))) rest (· = .enumDecl found vs) := by
  rw [enumDecl_eq]
  refine Takes.bind (takes_expectKeyword (by simpa only [List.append_assoc] using hword))
    fun _ _ => ?_
  refine Takes.bind (takes_skipSpaces hg (by simpa only [List.append_assoc] using hspace))
    fun _ _ => ?_
  refine Takes.bind (by simpa only [List.append_assoc] using hfound) fun v hv => ?_
  refine Takes.bind (takes_skipSpaces hg' ?_) fun _ _ => ?_
  · cases t with
    | nil => exact absurd rfl hne
    | cons u t => exact ht
  · refine Takes.bind_done hvariants fun all hall => ?_
    rw [hv, hall]
    exact takes_pure rfl

theorem takes_enumDecl_nothing {g g' : Text} {vs : List EnumVariant} (hg : IsGap false g)
    (hg' : IsGap true g') (h : Text.Separated (EnumVariant.Written room) true vs s) :
    Takes room n enumDecl ("enum" ++ (g ++ ("\x7b" ++ (g' ++ (s ++ "\x7d"))))) rest
      (· = .enumDecl none vs) :=
  takes_enumDecl (s := []) hg (Text.isGap_nil false) rfl
    (hg.endsWord rfl) takes_givenName_nothing rfl (List.cons_ne_nil _ _) (takes_variants hg' h)

theorem takes_enumDecl_name {name' g g' g'' : Text} {vs : List EnumVariant} (hg : IsGap false g)
    (hne : g ≠ []) (hname : IsName name') (hg' : IsGap false g') (hg'' : IsGap true g'')
    (h : Text.Separated (EnumVariant.Written room) true vs s) :
    Takes room n enumDecl
      ("enum" ++ (g ++ (name' ++ (g' ++ ("\x7b" ++ (g'' ++ (s ++ "\x7d"))))))) rest
      (· = .enumDecl (some name') vs) := by
  have hbrace : ∀ t : Text, (g' ++ (("\x7b" : Text) ++ t)).Avoids CodeUnit.isIdentifierChar :=
    fun t => hg'.endsWord rfl
  exact takes_enumDecl hg hg' (hname.startsOperand.avoids_startsGap false _)
    (hg.avoids_isIdentifierChar hne _) (takes_givenName hname (hbrace _)) rfl
    (List.cons_ne_nil _ _) (takes_variants hg'' h)

/-! ### Every declaration on one line -/

/-- A text that opens with a word, and with a gap or a sign behind it. -/
theorem opens_append {b : Bool} {word g : Text} (hg : IsGap b g)
    (hword : g = [] → t.StartsWith fun u => !u.isIdentifierChar) (rest : Text) :
    Text.Opens word (word ++ (g ++ t) ++ rest) := by
  refine ⟨g ++ t ++ rest, List.append_assoc _ _ _, ?_⟩
  by_cases hne : g = []
  · rw [hne]
    exact ((hword hne).append rest).avoids (by simp)
  · rw [List.append_assoc]
    exact hg.avoids_isIdentifierChar hne _

/-- With or without a modifier, a declaration opens with a word. -/
theorem opens_modified {α : Type} {word : α → Text} {m : Option α}
    (h : Text.Modified word m s) {w : Text} (ht : ∀ rest, Text.Opens w (t ++ rest)) :
    ∃ w' : Text, (w' = w ∨ ∃ c, w' = word c) ∧ ∀ rest, Text.Opens w' (s ++ t ++ rest) := by
  cases h with
  | none => exact ⟨w, .inl rfl, ht⟩
  | @some c g hg hne =>
    refine ⟨word c, .inr ⟨c, rfl⟩, fun rest => ?_⟩
    rw [List.append_assoc (word c)]
    exact opens_append hg (fun h => absurd h hne) rest

/-- A rule for declarations is reached where the text opens with a word of its own. -/
theorem takesToGap_decl_of_rule {indent i : Nat} {rule : Rule Decl} {word : Text}
    {P : Decl → Prop} (hi : (alternatives indent)[i]? = some (call rule)) (hword : IsName word)
    (hbefore : ∀ j < i, word ∉ openers.getD j []) (hopens : ∀ rest, Text.Opens word (s ++ rest))
    (h : TakesToGap room 0 rule.body s gap t P) :
    TakesToGap (room + 2) 0 (call (Rule.decl indent)) s gap t P := by
  rcases h with h | h
  · exact (takes_call (takes_decl hi hword hbefore (hopens _) (takes_call h))).toGap
  · refine (takes_call (takes_decl hi hword hbefore ?_ (takes_call h))).pastGap
    rw [List.append_assoc]
    exact hopens _

/-- The words that the declaration of a variable opens with. -/
theorem isName_varWord {w : Text} (hw : w = "var" ∨ ∃ c, w = VarModifier.word c) : IsName w := by
  rcases hw with rfl | ⟨c, rfl⟩
  · decide
  · cases c <;> decide +kernel

theorem not_mem_before_var {w : Text} (hw : w = "var" ∨ ∃ c, w = VarModifier.word c) :
    ∀ j < 7, w ∉ openers.getD j [] := by
  rcases hw with rfl | ⟨c, rfl⟩
  · decide
  · cases c <;> decide

/-- A declaration without a block is read where an item ends behind it. -/
theorem takesToGap_decl {d : Decl} {indent : Nat} (h : d.Written room s) (hgap : IsGap false gap)
    (ht : Statement.endsItem t = true) :
    TakesToGap (room + 2) 0 (call (Rule.decl indent)) s gap t fun v => v.bare = d.bare := by
  have hends : EndsBinding gap t := endsBinding_of_endsItem hgap ht
  have hword := hends.expr.word
  suffices hd : TakesToGap (room + 2) 0 (call (Rule.decl indent)) s gap t (· = d) from
    hd.mono fun v hv => by rw [hv]
  -- one case for each way to write a declaration, with the place of its rule among the alternatives
  cases h with
  | className hg hne hname =>
    exact takesToGap_decl_of_rule (i := 0) rfl (by decide) (by decide)
      (opens_append hg fun h => absurd h hne) (takes_classNameDecl hg hne hname hword).toGap
  | @extendsPath g literal hg hliteral =>
    refine takesToGap_decl_of_rule (i := 1) rfl (by decide) (by decide) (opens_append hg fun _ => ?_)
      (takes_extendsDecl_path hg hliteral).toGap
    cases hq : literal.quote <;> simp [StringLiteral.write, hq] <;> rfl
  | extendsName hg hne hname =>
    exact takesToGap_decl_of_rule (i := 1) rfl (by decide) (by decide)
      (opens_append hg fun h => absurd h hne) (takes_extendsDecl_name hg hne hname hword).toGap
  | @signal g name' hg hne hname =>
    refine takesToGap_decl_of_rule (i := 2) rfl (by decide) (by decide)
      (opens_append hg fun h => absurd h hne) ?_
    have hparams : Takes room 0 signalParams [] (gap ++ t) (· = none) :=
      takes_signalParams_nothing hgap ht
    have htakes := takes_signalDecl (s := []) hg hne hname hword hparams
    rw [List.append_nil] at htakes
    exact htakes.toGap
  | signalParams hg hne hname hg' hparams =>
    exact takesToGap_decl_of_rule (i := 2) rfl (by decide) (by decide)
      (opens_append hg fun h => absurd h hne)
      (takes_signalDecl_params hg hne hname hg' hparams).toGap
  | enum hg hg' hvariants =>
    exact takesToGap_decl_of_rule (i := 3) rfl (by decide) (by decide)
      (opens_append hg fun _ => rfl) (takes_enumDecl_nothing hg hg' hvariants).toGap
  | enumName hg hne hname hg' hg'' hvariants =>
    exact takesToGap_decl_of_rule (i := 3) rfl (by decide) (by decide)
      (opens_append hg fun h => absurd h hne)
      (takes_enumDecl_name hg hne hname hg' hg'' hvariants).toGap
  | const hg hne hname htyping =>
    exact takesToGap_decl_of_rule (i := 6) rfl (by decide) (by decide)
      (opens_append hg fun h => absurd h hne) (takesToGap_constDecl hg hne hname htyping hends)
  | @var modifier m g name' s typing value hmodifier hg hne hname htyping =>
    obtain ⟨w, hw, hopens⟩ := opens_modified hmodifier (t := "var" ++ (g ++ (name' ++ s)))
      (opens_append hg fun h => absurd h hne)
    exact takesToGap_decl_of_rule (i := 7) rfl (isName_varWord hw) (not_mem_before_var hw) hopens
      (takesToGap_varDecl hmodifier hg hne hname htyping hgap ht)
  | @varSetget modifier m g name' s g' t' typing value setter? getter hmodifier hg hne hname htyping
      hg' hne' haccessors =>
    obtain ⟨w, hw, hopens⟩ := opens_modified hmodifier
      (t := "var" ++ (g ++ (name' ++ (s ++ (g' ++ t'))))) (opens_append hg fun h => absurd h hne)
    exact takesToGap_decl_of_rule (i := 7) rfl (isName_varWord hw) (not_mem_before_var hw) hopens
      (takesToGap_varDecl_setget hmodifier hg hne hname htyping hg' hne' haccessors hgap ht)

end Declaration

end GDScript
