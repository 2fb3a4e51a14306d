import GDScript.Proofs.Expression.Level
import GDScript.Proofs.Script.Listing
import GDScript.Proofs.Turn

/-!
# Rules take something

Apart from those that may find nothing, every rule that finishes has taken a unit at least
(`Rule.advances`), since each of them starts with a word, a sign or another such rule. So every turn
of every loop that asks for another turn has taken a unit, and the turns that a run allows suffice.
-/

namespace GDScript

open Grammar

/-! ### Readers -/

/-- Where the reader finds something with `P`, it takes a unit at least. -/
def Reader.Advances {α : Type} (P : α → Prop) (reader : Reader α) : Prop :=
  ∀ t v n, reader t = .took v n → P v → 0 < n ∧ t ≠ []

namespace Reader

/-- A search that finds no empty text takes something where it finds one. -/
theorem advances_lexeme {find : Text → Option Text}
    (h : ∀ t found, find t = some found → found ≠ [] ∧ t ≠ []) :
    (lexeme find).Advances (· ≠ none) := by
  intro t v n hread hv
  unfold lexeme at hread
  cases hfind : find t with
  | none =>
    rw [hfind] at hread
    cases hread
    exact absurd rfl hv
  | some found =>
    rw [hfind] at hread
    cases hread
    exact ⟨List.length_pos_iff.mpr (h t found hfind).1, (h t found hfind).2⟩

/-- What starts with a name is not empty. -/
theorem ne_nil_of_startsName {t : Text} (h : t.startsName = true) : t ≠ [] := by
  rintro rfl
  exact absurd h (by decide)

/-- An identifier has a unit at least, the one it starts with. -/
theorem advances_identifier : identifier.Advances (· ≠ none) := by
  refine advances_lexeme fun t found hfind => ?_
  obtain ⟨hname, rest, rfl, -⟩ := Text.isName_of_identifier? hfind
  exact ⟨ne_nil_of_startsName hname.1, ne_nil_of_startsName (Text.startsName_append hname.1)⟩

/-- A text that is not empty is taken as a whole. -/
theorem advances_expect {text : Text} (h : text ≠ []) : (expect text).Advances fun _ => True := by
  intro t v n hread _
  unfold expect at hread
  split_ifs at hread with hprefix
  cases hread
  refine ⟨List.length_pos_iff.mpr h, fun hnil => ?_⟩
  rw [hnil, List.isPrefixOf_iff_prefix, List.prefix_nil] at hprefix
  exact h hprefix

/-- A keyword is taken as a whole, and none is empty. -/
theorem advances_expectKeyword {word : Text} (h : word ≠ []) :
    (expectKeyword word).Advances fun _ => True := by
  intro t v n hread _
  unfold expectKeyword at hread
  split_ifs at hread with hword
  cases hread
  refine ⟨List.length_pos_iff.mpr h, fun hnil => ?_⟩
  rw [hnil, Text.startsWord, Bool.and_eq_true, List.isPrefixOf_iff_prefix, List.prefix_nil] at hword
  exact h hword.1

/-- No spelling of the table is empty, so an operator that is found takes its spelling. -/
theorem advances_operator {Op : Type} {table : List (Spelling Op)}
    (h : ∀ s ∈ table, s.text ≠ []) : (operator table).Advances (· ≠ none) := by
  intro t v n hread hv
  unfold operator at hread
  split at hread
  · next s hfind =>
    cases hread
    have htext := h s (List.mem_of_find?_eq_some hfind)
    have hat := List.find?_some hfind
    -- nothing but the empty text is a prefix of an empty text
    refine ⟨List.length_pos_iff.mpr htext, fun hnil => htext ?_⟩
    rw [hnil, Spelling.isAt, Bool.and_eq_true, Bool.and_eq_true, List.isPrefixOf_iff_prefix,
      List.prefix_nil] at hat
    exact hat.1.1
  · cases hread
    exact absurd rfl hv

/-- The words for constants are not empty. -/
theorem advances_constant : Expression.constant.Advances (· ≠ none) := by
  intro t v n hread hv
  unfold Expression.constant at hread
  split at hread
  · next word value hfind =>
    cases hread
    rw [Expression.constant?] at hfind
    have hat : Text.startsWord word t = true := by simpa using List.find?_some hfind
    -- no constant is spelled with nothing
    have hword : word ≠ [] := by
      have hrow := List.mem_of_find?_eq_some hfind
      simp only [List.mem_cons, Prod.mk.injEq, List.not_mem_nil, or_false] at hrow
      rcases hrow with h | h | h | h | h <;> rw [h.1] <;> decide
    refine ⟨List.length_pos_iff.mpr hword, fun hnil => hword ?_⟩
    rw [hnil, Text.startsWord, Bool.and_eq_true, List.isPrefixOf_iff_prefix, List.prefix_nil] at hat
    exact hat.1
  · cases hread
    exact absurd rfl hv

/-- A string has its two quotes at least. -/
theorem advances_string : string.Advances (· ≠ none) := by
  intro t v n hread hv
  obtain ⟨literal, rfl⟩ := Option.ne_none_iff_exists'.mp hv
  obtain ⟨-, ⟨rest, rfl⟩, rfl⟩ := isValid_of_string hread
  simp [StringLiteral.write]

/-- A node path has its dollar sign at least. -/
theorem advances_nodePath : nodePath.Advances (· ≠ none) := by
  intro t v n hread hv
  obtain ⟨path, rfl⟩ := Option.ne_none_iff_exists'.mp hv
  cases t with
  | nil => cases hread
  | cons u t =>
    refine ⟨?_, by simp⟩
    rw [nodePath] at hread
    split_ifs at hread
    · -- behind the dollar sign stands a string or a chain of names
      split at hread
      · cases hread
      · cases hread
        omega
      · split at hread <;> cases hread
        omega
    · cases hread

/-- The digits of an integer are not empty. -/
theorem advances_int : int.Advances (· ≠ none) := by
  intro t v n hread hv
  unfold int at hread
  split at hread
  · cases hread
    exact absurd rfl hv
  · next literal hliteral =>
    split_ifs at hread
    cases hread
    obtain ⟨hnumeral, rest, rfl⟩ := Text.isNumeral_of_intLiteral? hliteral
    cases hnumeral with
    | decimal h => exact ⟨List.length_pos_iff.mpr h.1, by simp [h.1]⟩
    | hexadecimal h => exact ⟨Nat.zero_lt_succ _, List.cons_ne_nil _ _⟩

/-- A float has its point at least. -/
theorem advances_float : float.Advances (· ≠ none) := by
  intro t v n hread hv
  unfold float at hread
  split at hread
  · cases hread
    exact absurd rfl hv
  · next literal hliteral =>
    cases hread
    obtain ⟨⟨hwhole, hfraction⟩, rest, rfl⟩ := Text.isNumeral_of_floatLiteral? hliteral
    refine ⟨?_, by simp⟩
    rw [List.length_append, List.length_cons]
    omega

end Reader

/-! ### Grammars -/

/-- A cursor that has something else ahead lies further on. -/
theorem Cursor.Reaches.length_lt {c c' : Cursor} (h : c.Reaches c') (hne : c'.ahead ≠ c.ahead) :
    c'.ahead.length < c.ahead.length := by
  obtain ⟨k, hk, rfl⟩ := h
  have hpos : k ≠ 0 := by
    rintro rfl
    exact hne rfl
  rw [ahead_advanceBy, List.length_drop]
  omega

namespace Grammar

variable {R : Type → Type} [RuleSet R] {α β σ : Type} {room : Nat}

/-- Every run that finishes has taken a unit at least. -/
def Advances (room : Nat) (g : Grammar R α) : Prop :=
  ∀ c, Yields room g c fun _ c' => c'.ahead.length < c.ahead.length

/-- Every turn that asks for another one has taken a unit at least. -/
def TurnsAdvance (room : Nat) (turn : σ → Grammar R (Next σ)) : Prop :=
  ∀ x c, Yields room (turn x) c fun next c' => match next with
    | .again _ => c'.ahead.length < c.ahead.length
    | .done _ => True

variable {g : Grammar R α} {f : α → Grammar R β}

/-- What comes next gives no unit back. -/
theorem Advances.bind (h : Advances room g) (f : α → Grammar R β) : Advances room (g >>= f) :=
  fun c => (h c).bind fun v c' hlt =>
    (yields_reaches room (f v) c').mono fun _ _ hreach => Nat.lt_of_le_of_lt hreach.length_le hlt

/-- What comes first gives no unit back. -/
theorem Advances.after (h : ∀ v, Advances room (f v)) : Advances room (g >>= f) :=
  fun c => (yields_reaches room g c).bind fun v c' hreach =>
    (h v c').mono fun _ _ hlt => Nat.lt_of_lt_of_le hlt hreach.length_le

/-- The alternative that finishes has taken a unit, since each of them does. -/
theorem advances_choice {alternatives : List (Grammar R α)}
    (h : ∀ g ∈ alternatives, Advances room g) : Advances room (choice alternatives) :=
  fun c => yields_choice fun g hg => h g hg c

/-- A grammar that always fails has no run that finishes. -/
theorem advances_expected (what : Text) : Advances room (expected what : Grammar R α) :=
  fun _ => yields_expected

/-- Where a reader finds something it takes a unit, so less lies ahead. -/
theorem yields_read_lt {reader : Reader α} {P : α → Prop} (h : reader.Advances P) (c : Cursor) :
    Yields room (read reader : Grammar R α) c fun v c' =>
      P v → c'.ahead.length < c.ahead.length := by
  refine yields_read fun v n hread hv => ?_
  obtain ⟨hpos, hne⟩ := h _ v n hread hv
  have hlength := List.length_pos_iff.mpr hne
  rw [Cursor.ahead_advanceBy, List.length_drop]
  omega

theorem advances_read {reader : Reader α} (h : reader.Advances fun _ => True) :
    Advances room (read reader : Grammar R α) :=
  fun c => (yields_read_lt h c).mono fun _ _ hlt => hlt trivial

theorem advances_expect {text : Text} (h : text ≠ []) :
    Advances room (expect text : Grammar R Unit) :=
  advances_read (Reader.advances_expect h)

theorem advances_expectKeyword {word : Text} (h : word ≠ []) :
    Advances room (expectKeyword word : Grammar R Unit) :=
  advances_read (Reader.advances_expectKeyword h)

/-- Where nothing is found, what comes next takes a unit. -/
theorem Advances.bind_option {g : Grammar R (Option α)} {f : Option α → Grammar R β}
    (h : ∀ c, Yields room g c fun v c' => v ≠ none → c'.ahead.length < c.ahead.length)
    (hnone : Advances room (f none)) : Advances room (g >>= f) := by
  intro c
  refine ((yields_reaches room g c).and (h c)).bind fun found c' hfound => ?_
  cases found with
  | none => exact (hnone c').mono fun _ _ hlt => Nat.lt_of_lt_of_le hlt hfound.1.length_le
  | some v =>
    exact (yields_reaches room _ c').mono fun _ _ hreach =>
      Nat.lt_of_le_of_lt hreach.length_le (hfound.2 (by simp))

/-- What has to be found is found, and takes a unit. -/
theorem advances_require {what : Text} {reader : Reader (Option α)}
    (h : reader.Advances (· ≠ none)) : Advances room (require what reader : Grammar R α) :=
  Advances.bind_option (yields_read_lt h) (advances_expected what)

/-- A loop whose turns all take something ends by a turn that asks for the end. -/
theorem YieldsIn.loop_of_advances {turn : σ → Grammar R (Next σ)} {n : Nat} {x : σ} {c : Cursor}
    {I P : σ → Cursor → Prop} (hturn : TurnsAdvance room turn) (hx : I x c)
    (h : ∀ y c', I y c' → YieldsIn room n (turn y) c' fun next c'' => match next with
      | .again z => I z c''
      | .done z => P z c'') :
    YieldsIn room n (Grammar.iterate turn x) c P := by
  intro scope journal v c' journal' hn hrun
  rw [run_iterate, Parser.iterate] at hrun
  have hfuel : c.ahead.length < c.ahead.length + 1 := Nat.lt_succ_self _
  -- the turns that are left always exceed what is ahead, so they never run out
  generalize c.ahead.length + 1 = turns at hrun hfuel
  induction turns generalizing x c journal with
  | zero => exact absurd hfuel (Nat.not_lt_zero _)
  | succ turns ih =>
    simp only [Parser.turns, Parser.bind] at hrun
    cases hfirst : run room (turn x) scope c journal with
    | failed failure journal'' =>
      rw [hfirst] at hrun
      cases hrun
    | finished next c'' journal'' =>
      rw [hfirst] at hrun
      have hnext := h x c hx scope journal next c'' journal'' hn hfirst
      have hlt := hturn x c scope journal next c'' journal'' hfirst
      cases next with
      | again y => exact ih hnext _ hrun (Nat.lt_of_lt_of_le hlt (Nat.lt_succ_iff.mp hfuel))
      | done y =>
        cases hrun
        exact hnext

/-- The loop rule, with promises about all runs and not only those inside some brackets. -/
theorem Yields.loop_of_advances {turn : σ → Grammar R (Next σ)} {x : σ} {c : Cursor}
    {I P : σ → Cursor → Prop} (hturn : TurnsAdvance room turn) (hx : I x c)
    (h : ∀ y c', I y c' → Yields room (turn y) c' fun next c'' => match next with
      | .again z => I z c''
      | .done z => P z c'') :
    Yields room (Grammar.iterate turn x) c P :=
  yields_of_inside fun n => YieldsIn.loop_of_advances hturn hx fun y c' hy => (h y c' hy).inside n

/-- A loop whose last turn keeps the state has taken a unit if it leaves another one. -/
theorem yields_iterate_lt {turn : σ → Grammar R (Next σ)} {x : σ} (hturn : TurnsAdvance room turn)
    (hdone : ∀ y c, Yields room (turn y) c fun next _ => ∀ z, next = .done z → z = y) (c : Cursor) :
    Yields room (Grammar.iterate turn x) c fun y c' => y ≠ x → c'.ahead.length < c.ahead.length := by
  refine Yields.loop_of_advances hturn (I := fun y c' => c.Reaches c' ∧
    (y ≠ x → c'.ahead.length < c.ahead.length)) ⟨.refl c, fun h => absurd rfl h⟩ fun y c' hy => ?_
  refine (((hturn y c').and (hdone y c')).and (yields_reaches room _ c')).mono fun next c'' hnext => ?_
  obtain ⟨⟨hlt, hkept⟩, hreach⟩ := hnext
  -- another turn leaves less ahead; the last one keeps the state, so the turns before it count
  cases next with
  | again z => exact ⟨hy.1.trans hreach, fun _ => Nat.lt_of_lt_of_le hlt hy.1.length_le⟩
  | done z =>
    obtain rfl := hkept z rfl
    exact fun hne => Nat.lt_of_le_of_lt hreach.length_le (hy.2 hne)

/-! ### Turns of lists -/

section Lists

variable {item : Grammar R α} (hitem : Advances room item)

include hitem

/-- Another item is asked for behind an item, so a unit has been taken. -/
theorem turnsAdvance_commaTurn : TurnsAdvance room (commaTurn item) := by
  refine fun items c => (hitem.bind _ c).mono fun next _ hlt => ?_
  cases next
  · exact hlt
  · trivial

/-- An item stands in front of each comma. -/
theorem turnsAdvance_itemsTurn (closer : Text) : TurnsAdvance room (itemsTurn closer item) := by
  intro items c
  refine (yields_reaches room _ c).bind fun closed c₁ h₁ => ?_
  split
  · exact yields_pure trivial
  · refine (hitem.bind _ c₁).mono fun next _ hlt => ?_
    cases next
    · exact Nat.lt_of_lt_of_le hlt h₁.length_le
    · trivial

end Lists

end Grammar

/-! ### Rules -/

/-- What a rule finds where it takes a unit at least. -/
def Rule.TakesUnit : {α : Type} → Rule α → α → Prop
  | _, .file, _ | _, .block _ _, _ | _, .indentedBlock _, _ | _, .member _, _ => False
  | _, .int, v => v ≠ none
  | _, _, _ => True

/-- Every rule takes a unit where it finds something that says so. -/
def Rule.AllAdvance (room : Nat) : Prop :=
  ∀ {α : Type} (rule : Rule α) (c : Cursor), Yields room (call rule) c fun v c' =>
    rule.TakesUnit v → c'.ahead.length < c.ahead.length

section Rules

variable {room : Nat} (hrules : Rule.AllAdvance room)

include hrules

/-- A rule that always finds something takes a unit where it is called. -/
theorem Rule.AllAdvance.call {α : Type} (rule : Rule α) (h : ∀ v, rule.TakesUnit v) :
    Advances room (call rule) :=
  fun c => (hrules rule c).mono fun v _ hlt => hlt (h v)

namespace Expression

omit hrules in
theorem advances_name : Advances room name :=
  advances_require Reader.advances_identifier

omit hrules in
theorem advances_identOrCall : Advances room identOrCall :=
  advances_name.bind _

omit hrules in
theorem advances_enclosed {opener : Text} (h : opener ≠ []) (closer : Text) :
    Advances room (enclosed opener closer) :=
  (advances_expect h).bind _

/-- One of the two kinds of number is found, or the rule fails. -/
theorem advances_number : Advances room number :=
  Advances.bind_option (yields_read_lt Reader.advances_float)
    (Advances.bind_option (hrules .int) (advances_expected _))

/-- Every kind of value takes a unit, whichever the unit ahead asks for. -/
theorem advances_value : Advances room value := by
  refine Advances.after fun next => ?_
  cases next with
  | none => exact advances_expected _
  | some u =>
    -- the unit that is ahead decides which kind of value is read
    dsimp only
    split_ifs
    · exact hrules.call .array fun _ => trivial
    · exact hrules.call .object fun _ => trivial
    · exact hrules.call .nodePath fun _ => trivial
    · exact hrules.call .string fun _ => trivial
    · exact advances_number hrules
    · exact Advances.bind_option (yields_read_lt Reader.advances_constant) advances_identOrCall
    · exact advances_expected _

/-- An expression in parentheses or a value takes a unit. -/
theorem advances_primary : Advances room primary := by
  refine Advances.after fun opened => ?_
  split
  · exact hrules.call .parens fun _ => trivial
  · exact hrules.call .value fun _ => trivial

theorem advances_postfixed : Advances room postfixed :=
  (advances_primary hrules).bind _

/-- Where no operator stands in front there is an operand. -/
theorem advances_unary : Advances room unary :=
  Advances.bind_option (yields_read_lt (Reader.advances_operator (by decide)))
    (advances_postfixed hrules)

/-- A level starts with the next tighter one, down to the values. -/
theorem advances_atLevel (level : Nat) : Advances room (atLevel level) :=
  have hterm : Advances room term := (advances_unary hrules).bind _
  have hsum : Advances room sum := hterm.bind _
  match level with
  | 0 => hsum.bind _
  | 1 => hsum
  | 2 => hterm
  | 3 => advances_unary hrules
  | 4 => advances_postfixed hrules
  | _ + 5 => advances_primary hrules

end Expression

/-- Each of the three kinds of line takes a unit. -/
theorem Script.advances_lineItem (indent : Nat) : Advances room (lineItem indent) := by
  refine Advances.after fun start => advances_choice fun g hg => ?_
  simp only [List.mem_cons, List.not_mem_nil, or_false] at hg
  rcases hg with rfl | rfl | rfl
  · exact (hrules.call (.decl indent) fun _ => trivial).bind _
  · exact (hrules.call (.stmt indent) fun _ => trivial).bind _
  · exact (hrules.call .expr fun _ => trivial).bind _

/-- What one rule takes, if the rules it calls take what they should. -/
theorem Rule.yields_body_takesUnit {α : Type} (rule : Rule α) (c : Cursor) :
    Yields room rule.body c fun v c' => rule.TakesUnit v → c'.ahead.length < c.ahead.length := by
  have hword : ∀ {β : Type} {word : Text} (f : Unit → Grammar Rule β), word ≠ [] →
      Advances room (expectKeyword word >>= f) := fun f h => (advances_expectKeyword h).bind f
  -- a rule that may find nothing has nothing to show; the others take a unit in any case
  suffices h : (∀ v, rule.TakesUnit v) → Advances room rule.body by
    cases rule
    case file | block | indentedBlock | member => exact fun _ _ _ _ _ _ hfalse => hfalse.elim
    case int => exact yields_read_lt Reader.advances_int c
    all_goals exact (h (fun _ => trivial) c).mono fun _ _ hlt _ => hlt
  intro htakes
  cases rule with
  | file | block | indentedBlock => exact (htakes []).elim
  | member name => exact (htakes .null).elim
  | int => exact absurd rfl (htakes none)
  | line indent => exact (Script.advances_lineItem hrules indent).bind _
  | decl indent =>
    refine advances_choice fun g hg => ?_
    simp only [List.mem_cons, List.not_mem_nil, or_false] at hg
    rcases hg with rfl | rfl | rfl | rfl | rfl | rfl | rfl | rfl
    all_goals exact hrules.call _ fun _ => trivial
  | stmt indent =>
    refine advances_choice fun g hg => ?_
    simp only [List.mem_cons, List.not_mem_nil, or_false] at hg
    rcases hg with rfl | rfl | rfl | rfl | rfl | rfl | rfl
    all_goals exact hrules.call _ fun _ => trivial
  | varDecl | functionDecl indent =>
    exact Advances.after fun _ => Advances.after fun _ => hword _ (by decide)
  | constDecl | extendsDecl | classNameDecl | signalDecl | enumDecl | classDecl indent
  | ifStmt indent | elifBranch indent | elseBranch indent | whileStmt indent | forStmt indent
  | matchStmt indent | returnStmt | passStmt => exact hword _ (by decide)
  | enumVariant => exact Advances.after fun _ => Expression.advances_name.bind _
  | functionArg => exact Expression.advances_name.bind _
  | matchCase indent => exact hrules.call (.condition indent) fun _ => trivial
  | assignStmt => exact (Expression.advances_postfixed hrules).bind _
  | condition indent =>
    exact Advances.after fun _ => (hrules.call .expr fun _ => trivial).bind _
  | expr => exact Expression.advances_atLevel hrules 0
  | unary op => exact (Expression.advances_unary hrules).bind _
  | parens => exact Expression.advances_enclosed (by decide) _
  | index => exact Expression.advances_enclosed (by decide) _
  | value => exact Expression.advances_value hrules
  | string => exact (advances_require Reader.advances_string).bind _
  | nodePath => exact (advances_require Reader.advances_nodePath).bind _
  | array | object => exact (advances_expect (by decide)).bind _
  | pair => exact (hrules.call .expr fun _ => trivial).bind _
  | functionCall name => exact Advances.bind ((advances_expect (by decide)).bind _) _

end Rules

/-- All rules take a unit where they should, by induction on the room for calls. -/
theorem Rule.allAdvance (room : Nat) : Rule.AllAdvance room :=
  yields_call_of_bodies
    (S := fun rule c v c' => Rule.TakesUnit rule v → c'.ahead.length < c.ahead.length)
    (fun _ hrules _ rule c => Rule.yields_body_takesUnit hrules rule c) room

/-- The rules that always find something take a unit. -/
theorem Rule.advances (room : Nat) {α : Type} (rule : Rule α) (h : ∀ v, rule.TakesUnit v) :
    Advances room (call rule) :=
  Rule.AllAdvance.call (Rule.allAdvance room) rule h

/-! ### Turns of the language -/

section Turns

variable (room : Nat)

/-- Another turn has read an operator and its right operand. -/
theorem Expression.turnsAdvance_binaryTurn (level : Nat) :
    TurnsAdvance room (binaryTurn level) := by
  refine fun left c => (yields_reaches room _ c).bind fun found c₁ h₁ => ?_
  cases found with
  | none => exact yields_pure trivial
  | some op =>
    refine (Advances.after (fun _ => (advances_atLevel (Rule.allAdvance room) (level + 1)).bind _)
      c₁).mono fun next _ hlt => ?_
    cases next
    · exact Nat.lt_of_lt_of_le hlt h₁.length_le
    · trivial

/-- Another turn has read an index in its brackets. -/
theorem Expression.turnsAdvance_indexTurn : TurnsAdvance room indexTurn := by
  refine fun subscripted c => yields_look_bind ?_
  split
  · exact (Rule.advances room .index (fun _ => trivial) c).bind fun _ _ hlt => yields_pure hlt
  · exact yields_pure trivial

/-- Another turn has read a variant behind a comma. -/
theorem Declaration.turnsAdvance_variantTurn : TurnsAdvance room variantTurn := by
  refine fun found c => (yields_reaches room _ c).bind fun _ c₁ h₁ => ?_
  refine (yields_reaches room _ c₁).bind fun comma c₂ h₂ => ?_
  split
  · refine (yields_reaches room _ c₂).bind fun _ c₃ h₃ => yields_look_bind ?_
    split
    · exact yields_pure trivial
    · refine (Rule.advances room .enumVariant (fun _ => trivial) c₃).bind fun _ _ hlt => yields_pure ?_
      exact Nat.lt_of_lt_of_le hlt ((h₁.trans h₂).trans h₃).length_le
  · exact yields_pure trivial

/-- Another turn has read a line. -/
theorem Script.turnsAdvance_lineTurn (indent : Nat) : TurnsAdvance room (lineTurn indent) := by
  refine fun items c => (yields_lineTurn indent items c).mono fun next _ hnext => ?_
  cases next
  · exact hnext
  · trivial

/-- Another turn has read a branch. -/
theorem Statement.turnsAdvance_elifTurn (indent : Nat) : TurnsAdvance room (elifTurn indent) := by
  refine fun found c => Yields.bind (P := fun branch c' =>
    branch ≠ none → c'.ahead.length < c.ahead.length) ?_ fun branch c₁ hlt => ?_
  · refine (yields_reaches room _ c).bind fun sought c₁ h₁ => ?_
    split
    · refine (Rule.advances room (.elifBranch indent) (fun _ => trivial) c₁).bind
        fun _ _ hlt => yields_pure fun _ => ?_
      exact Nat.lt_of_lt_of_le hlt h₁.length_le
    · exact yields_pure fun hne => absurd rfl hne
  · cases branch with
    | none => exact yields_pure trivial
    | some branch => exact yields_pure (hlt (by simp))

/-- Another turn has read a case. -/
theorem Statement.turnsAdvance_caseTurn (width : Nat) : TurnsAdvance room (caseTurn width) := by
  refine fun found c => (yields_reaches room _ c).bind fun sought c₁ h₁ => ?_
  split
  · refine (Rule.advances room (.matchCase width) (fun _ => trivial) c₁).bind
      fun _ _ hlt => yields_pure ?_
    exact Nat.lt_of_lt_of_le hlt h₁.length_le
  · exact yields_pure trivial

/-- The last turn keeps the cases. -/
theorem Statement.yields_caseTurn_kept (width : Nat) (found : List Condition) (c : Cursor) :
    Yields room (caseTurn width found) c fun next _ => ∀ z, next = .done z → z = found := by
  refine (yields_reaches room _ c).bind fun sought c₁ _ => ?_
  split
  · refine (yields_reaches room _ c₁).bind fun branch c₂ _ => yields_pure ?_
    rintro _ ⟨⟩
  · refine yields_pure ?_
    rintro _ ⟨⟩
    rfl

/-- A comment stands between the cursor and the end of the line that it is read up to. -/
theorem Script.yields_commentLine_lt {c : Cursor} (h : c.ahead.isCommentLine = true) :
    Yields room commentLine c fun _ c' => c'.ahead.length < c.ahead.length := by
  refine ((yields_commentLine_atLineEnd h).and (yields_reaches room _ c)).mono fun _ c' hend => ?_
  -- the cursor is not where it was: that place was no end of a line
  refine hend.2.length_lt fun heq => ?_
  obtain ⟨gap, body, rest, hahead, hgap, -⟩ := Text.exists_of_isCommentLine h
  have hcomment : c.ahead.atLineEnd = false := by
    rw [hahead]
    cases gap with
    | nil => rfl
    | cons u gap => exact Text.isLineEnd_eq_false_of_isSpace (hgap u List.mem_cons_self)
  rw [← heq, hend.1.1] at hcomment
  exact Bool.noConfusion hcomment

/-- Another turn has found a line of the block, code or a comment. -/
theorem Script.turnsAdvance_blockTurn (level : Nat) (required : Bool) :
    TurnsAdvance room (blockTurn level required) := by
  intro lines c
  generalize hrequired : (required && lines.all Line.isComment) = must
  have hover := reaches_passOver level c
  have hline : Yields room (call (Rule.line level)) ((passOver level c).advanceBy level)
      fun _ c' => c'.ahead.length < c.ahead.length :=
    (Rule.advances room (.line level) (fun _ => trivial) _).mono fun _ _ hlt =>
      Nat.lt_of_lt_of_le hlt (hover.trans (Cursor.reaches_advanceBy _ level)).length_le
  -- what is found is a comment or a line of code, and both of them take a unit
  have hfound : Yields room (blockLine level must) c fun found c' =>
      found ≠ none → c'.ahead.length < c.ahead.length := by
    refine yields_of_leads fun journal => leads_blockLine (fun _ hne => absurd rfl hne)
      (fun hcomment => ?_) (fun _ _ _ hne => absurd rfl hne)
      (fun _ _ _ => (leads_of_yields hline).mono (fun _ _ _ hlt _ => hlt) fun _ _ hE => hE)
      fun _ _ _ => leads_of_yields (Yields.attempt (hline.mono fun _ _ hlt _ => hlt)
        fun hne => absurd rfl hne)
    exact (leads_of_yields (yields_commentLine_lt room hcomment)).mono
      (fun _ _ _ hlt _ => Nat.lt_of_lt_of_le hlt hover.length_le) fun _ _ hE => hE
  rw [blockTurn, hrequired]
  refine hfound.bind fun found c' hlt => ?_
  cases found with
  | none => exact yields_pure trivial
  | some found => exact yields_pure (hlt (by simp))

/-- The last turn keeps the lines. -/
theorem Script.yields_blockTurn_kept (level : Nat) (required : Bool) (lines : Block) (c : Cursor) :
    Yields room (blockTurn level required lines) c fun next _ => ∀ z, next = .done z → z = lines := by
  refine (yields_reaches room _ c).bind fun found c₁ _ => ?_
  cases found with
  | none =>
    refine yields_pure ?_
    rintro _ ⟨⟩
    rfl
  | some found =>
    refine yields_pure ?_
    rintro _ ⟨⟩

end Turns

end GDScript
