import GDScript.Proofs.Script.Bare
import GDScript.Proofs.Script.Item

/-!
# The alternatives for an item

An item is read as a declaration, else as a statement, else as an expression, and each of the first
two has alternatives of its own. All but one of these open with a word, and refuse a text that opens
with another one. The assignment opens with a value, as an expression does; it refuses an expression
because no sign of an assignment stands where its target ends (`Statement.refuses_assignStmt`).
-/

namespace GDScript

open Grammar
open Text (IsGap IsName EndsExpr)

/-- A rule that starts with a word refuses where the word is not. -/
theorem refuses_rule {α : Type} {room n : Nat} {rule : Rule α} {word t : Text}
    {f : Unit → Grammar Rule α} (hbody : rule.body = expectKeyword word >>= f)
    (h : Text.startsWord word t = false) : Refuses (room + 1) n (call rule) t := by
  refine refuses_call ?_
  show Refuses room n rule.body t
  rw [hbody]
  exact refuses_bind (refuses_expectKeyword h)

/-- The text of an expression does not start with a word that names no value. -/
theorem Expr.Written.startsWord_eq_false {room level : Nat} {b : Bool} {e : Expr} {s rest w : Text}
    (h : e.Written room b level s) (hw : w ∈ Declaration.words ++ Statement.words)
    (hrest : rest.Avoids CodeUnit.isIdentifierChar) : Text.startsWord w (s ++ rest) = false := by
  have hwords : ∀ w ∈ Declaration.words ++ Statement.words,
      IsName w ∧ (∀ c ∈ Expr.constants, c.1 ≠ w) ∧ w ≠ "not" := by
    decide +kernel
  obtain ⟨hname, hconstant, hnot⟩ := hwords w hw
  exact h.avoidsWords w (List.mem_cons_of_mem _ hw) hname hconstant (fun _ => hnot) rest hrest

/-! ### The alternatives for an item -/

namespace Declaration

variable {room n indent : Nat} {s t rest : Text}

/-- The declarations in the order in which they are tried. -/
def alternatives (indent : Nat) : List (Grammar Rule Decl) :=
  [call .classNameDecl, call .extendsDecl, call .signalDecl, call .enumDecl,
    call (.classDecl indent), call (.functionDecl indent), call .constDecl, call .varDecl]

/-- The words that the alternatives open with. -/
def openers : List (List Text) :=
  [["class_name"], ["extends"], ["signal"], ["enum"], ["class"],
    "func" :: FunctionModifier.all.map FunctionModifier.word, ["const"],
    "var" :: VarModifier.all.map VarModifier.word]

theorem mem_all_function (m : FunctionModifier) : m ∈ FunctionModifier.all := by
  cases m <;> decide

theorem mem_all_var (m : VarModifier) : m ∈ VarModifier.all := by
  cases m <;> decide

theorem isName_of_mem_openers : ∀ ws ∈ openers, ∀ w ∈ ws, IsName w := by
  decide +kernel

/-- An alternative refuses where none of its words is ahead. -/
theorem refuses_alternative {i : Nat} {g : Grammar Rule Decl}
    (hi : (alternatives indent)[i]? = some g)
    (hwords : ∀ w ∈ openers.getD i [], Text.startsWord w t = false)
    (hspace : t.Avoids CodeUnit.isSpace) : Refuses (room + 1) n g t := by
  -- only functions and variables have words in front that may be missing
  rcases i with _ | _ | _ | _ | _ | _ | _ | _ | i
  · obtain rfl := Option.some.inj hi
    exact refuses_rule rfl (hwords _ (by decide))
  · obtain rfl := Option.some.inj hi
    exact refuses_rule rfl (hwords _ (by decide))
  · obtain rfl := Option.some.inj hi
    exact refuses_rule rfl (hwords _ (by decide))
  · obtain rfl := Option.some.inj hi
    exact refuses_rule rfl (hwords _ (by decide))
  · obtain rfl := Option.some.inj hi
    exact refuses_rule rfl (hwords _ (by decide))
  · obtain rfl := Option.some.inj hi
    refine refuses_call (refuses_modified (fun m _ => hwords _ ?_) hspace ?_)
    · cases m <;> decide
    · exact refuses_bind (refuses_expectKeyword (hwords _ (by decide)))
  · obtain rfl := Option.some.inj hi
    exact refuses_rule rfl (hwords _ (by decide))
  · obtain rfl := Option.some.inj hi
    refine refuses_call (refuses_modified (fun m _ => hwords _ ?_) hspace ?_)
    · cases m <;> decide
    · exact refuses_bind (refuses_expectKeyword (hwords _ (by decide)))
  · exact absurd hi (by simp [alternatives])

/-- The alternative at a place is taken where the text opens with a word of none before it. -/
theorem takes_decl {i : Nat} {g : Grammar Rule Decl} {word : Text} {P : Decl → Prop}
    (hi : (alternatives indent)[i]? = some g) (hword : IsName word)
    (hbefore : ∀ j < i, word ∉ openers.getD j []) (hopens : Text.Opens word (s ++ rest))
    (h : Takes (room + 1) n g s rest P) : Takes (room + 1) n (decl indent) s rest P := by
  -- the alternatives in front refuse, since each of them starts with another word
  refine takes_choice_at i hi (fun j hj g' hg' => refuses_alternative hg' (fun w hw => ?_) ?_) h
  · -- two words that are ahead at the same place are the same word
    have hw' : IsName w := by
      have hj' : j < openers.length := by
        rw [List.getD_eq_getElem?_getD] at hw
        by_contra hlt
        rw [List.getElem?_eq_none (by omega)] at hw
        exact absurd hw List.not_mem_nil
      rw [List.getD_eq_getElem?_getD, List.getElem?_eq_getElem hj'] at hw
      exact isName_of_mem_openers _ (List.getElem_mem hj') w hw
    refine hopens.startsWord_eq_false hword hw' ?_
    rintro rfl
    exact hbefore j hj hw
  · exact (hopens.startsCode hword).avoids fun u hu => by
      simp [CodeUnit.startsGap, hu]

/-- No declaration starts where none of the words is ahead. -/
theorem refuses_decl (hwords : ∀ w ∈ words, Text.startsWord w t = false)
    (hspace : t.Avoids CodeUnit.isSpace) : Refuses (room + 2) n (call (Rule.decl indent)) t := by
  -- the words of all alternatives are the words for declarations
  have hopeners : ∀ i, ∀ w ∈ openers.getD i [], w ∈ words := by
    intro i w hw
    rw [List.getD_eq_getElem?_getD] at hw
    have hall : ∀ ws ∈ openers, ∀ w ∈ ws, w ∈ words := by decide +kernel
    cases hi : openers[i]? with
    | none => rw [hi] at hw; exact absurd hw List.not_mem_nil
    | some ws =>
      rw [hi] at hw
      exact hall ws (List.mem_of_getElem? hi) w hw
  refine refuses_call ?_
  show Refuses (room + 1) n (choice (alternatives indent)) t
  refine refuses_choice fun g hg => ?_
  obtain ⟨i, hi⟩ := List.mem_iff_getElem?.mp hg
  exact refuses_alternative hi (fun w hw => hwords w (hopeners i w hw)) hspace

end Declaration

namespace Statement

variable {room n indent : Nat} {s t rest : Text}

/-! ### Statements that open with a word -/

/-- The first alternatives, each of which opens with a word. -/
def alternatives (indent : Nat) : List (Grammar Rule Stmt) :=
  [call (.ifStmt indent), call (.whileStmt indent), call (.forStmt indent),
    call (.matchStmt indent), call .returnStmt]

/-- The words that they open with. -/
def openers : List Text := ["if", "while", "for", "match", "return"]

theorem stmt_eq (indent : Nat) :
    stmt indent = choice (alternatives indent ++ [call .assignStmt, call .passStmt]) := rfl

/-- An alternative refuses where its word is not ahead. -/
theorem refuses_alternative {i : Nat} {g : Grammar Rule Stmt}
    (hi : (alternatives indent)[i]? = some g)
    (hword : ∀ w ∈ openers[i]?, Text.startsWord w t = false) : Refuses (room + 1) n g t := by
  match i with
  | 0 => obtain rfl := Option.some.inj hi; exact refuses_rule rfl (hword _ rfl)
  | 1 => obtain rfl := Option.some.inj hi; exact refuses_rule rfl (hword _ rfl)
  | 2 => obtain rfl := Option.some.inj hi; exact refuses_rule rfl (hword _ rfl)
  | 3 => obtain rfl := Option.some.inj hi; exact refuses_rule rfl (hword _ rfl)
  | 4 => obtain rfl := Option.some.inj hi; exact refuses_rule rfl (hword _ rfl)
  | i + 5 => exact absurd hi (by simp [alternatives])

theorem refuses_alternatives (hwords : ∀ w ∈ openers, Text.startsWord w t = false) :
    ∀ g ∈ alternatives indent, Refuses (room + 1) n g t := by
  intro g hg
  obtain ⟨i, hi⟩ := List.mem_iff_getElem?.mp hg
  exact refuses_alternative hi fun w hw => hwords w (List.mem_of_getElem? hw)

theorem isName_of_mem_openers : ∀ w ∈ openers, IsName w := by
  decide +kernel

/-- The alternative at a place is taken where the text opens with its word. -/
theorem takes_stmt {i : Nat} {g : Grammar Rule Stmt} {word : Text} {P : Stmt → Prop}
    (hi : (alternatives indent)[i]? = some g) (hword : openers[i]? = some word)
    (hopens : Text.Opens word (s ++ rest)) (h : Takes (room + 1) n g s rest P) :
    Takes (room + 1) n (stmt indent) s rest P := by
  have hlt : i < (alternatives indent).length := (List.getElem?_eq_some_iff.mp hi).1
  have hname := isName_of_mem_openers word (List.mem_of_getElem? hword)
  rw [stmt_eq]
  refine takes_choice_at i (by rwa [List.getElem?_append_left hlt]) (fun j hj g' hg' => ?_) h
  rw [List.getElem?_append_left (by omega)] at hg'
  refine refuses_alternative hg' fun w hw => ?_
  refine hopens.startsWord_eq_false hname (isName_of_mem_openers w (List.mem_of_getElem? hw)) ?_
  -- No word is there twice.
  rintro rfl
  have hnodup : openers.Nodup := by decide
  have heq := (List.getElem?_inj (by simpa using (List.getElem?_eq_some_iff.mp hword).1) hnodup).mp
    (hword.trans hw.symm)
  omega

/-! ### An expression is no assignment -/

/-- A unit that the sign of an assignment starts with. -/
def startsSign (u : CodeUnit) : Bool := List.contains ("+-*/%=" : Text) u

theorem find?_assign_of_avoids (ht : t.Avoids startsSign) :
    Spelling.assign.find? (·.isAt t) = none :=
  Spelling.find?_eq_none_of_avoids (p := startsSign) (by decide) ht

/-- A sign before an operand is no assignment, since `=` does not follow it. -/
theorem find?_assign_sign {u : CodeUnit} (hu : u ≠ 0x3D) (ht : t.Avoids (· == 0x3D)) :
    Spelling.assign.find? (·.isAt (u :: t)) = none := by
  have hrows : ∀ row ∈ Spelling.assign, row.text = [0x3D] ∨ row.text.tail = [0x3D] := by decide
  rw [List.find?_eq_none]
  intro row hrow hat
  simp only [Spelling.isAt, Bool.and_eq_true, List.isPrefixOf_iff_prefix] at hat
  obtain ⟨⟨⟨r, hr⟩, -⟩, -⟩ := hat
  -- each sign is `=` alone or a unit with `=` behind it
  rcases hrows row hrow with htext | htail
  · rw [htext] at hr
    exact hu (List.cons.inj hr).1.symm
  · cases htext : row.text with
    | nil =>
      rw [htext] at htail
      exact absurd htail (by simp)
    | cons v w =>
      rw [htext, List.tail_cons] at htail
      rw [htext, htail] at hr
      rw [← (List.cons.inj hr).2] at ht
      exact Bool.noConfusion ht

/-- No sign of an assignment is spelled at the start of an expression. -/
theorem find?_assign_written {words : List Text} {p : Phrase} (h : Phrase.Written words room p s) :
    ∀ b level e, p = .expr b level e → ∀ rest : Text,
      Spelling.assign.find? (·.isAt (s ++ rest)) = none := by
  have hvalue : ∀ {w : Text}, w.StartsWith CodeUnit.startsValue → ∀ rest : Text,
      Spelling.assign.find? (·.isAt (w ++ rest)) = none := by
    intro w hw rest
    refine find?_assign_of_avoids ((hw.append rest).avoids fun u hu => ?_)
    have hmem : u ∈ ([0x2B, 0x2D, 0x2A, 0x2F, 0x25, 0x3D] : Text) := List.contains_iff_mem.mp hu
    simp only [List.mem_cons, List.not_mem_nil, or_false] at hmem
    rcases hmem with rfl | rfl | rfl | rfl | rfl | rfl <;> rfl
  have hstart := h.starts
  -- only a sign before an operand is of the class of `startsSign`; all else starts with a value
  induction h with
  | binary _ _ hw _ _ _ _ _ ih =>
    intro b level e hp rest
    simp only [List.append_assoc]
    exact ih hw.starts _ _ _ rfl _
  | tighter _ hw ih => exact fun b level e hp => ih hw.starts _ _ _ rfl
  | @unary b' room row g e' t hrow hg hword hw =>
    intro b level e hp rest
    have hset : (g ++ (t ++ rest)).Avoids (· == 0x3D) :=
      hg.avoids_sign rfl (Phrase.avoids_of_written (by decide) hw)
    have hrows : ∀ row ∈ Spelling.unary, row.text.StartsWith (fun u => !startsSign u) ∨
        row.text = [0x2B] ∨ row.text = [0x2D] := by
      decide
    rw [List.append_assoc, List.append_assoc]
    rcases hrows row hrow with hother | hplus | hminus
    · exact find?_assign_of_avoids ((hother.append _).avoids (by simp))
    · rw [hplus]
      exact find?_assign_sign (by decide) hset
    · rw [hminus]
      exact find?_assign_sign (by decide) hset
  | _ =>
    intro b level e hp
    cases hp <;> exact hvalue (hstart.2 (by omega))

variable {g : Text}

/-- Behind the target there is a gap, and no sign of an assignment. -/
theorem refuses_assignStmt_of_target {e : Expr}
    (h : Takes room n Expression.postfixed s (g ++ t) (· = e)) (hg : IsGap false g)
    (hspace : t.Avoids CodeUnit.isSpace) (hsign : Spelling.assign.find? (·.isAt t) = none) :
    Refuses room n assignStmt (s ++ (g ++ t)) := by
  refine Takes.refuses_bind h fun _ _ => ?_
  refine Takes.refuses_bind (takes_skipSpaces hg hspace) fun _ _ => ?_
  refine Takes.refuses_bind (s := []) (takes_operator_nothing hsign) fun found hfound => ?_
  rw [hfound]
  exact refuses_expected "assignment operator"

/-- A name that is no constant, with nothing that goes on with it. -/
theorem takes_postfixed_name {b : Bool} {name : Text} (hname : IsName name)
    (hconstant : ∀ c ∈ Expr.constants, c.1 ≠ name) (hrest : EndsExpr b 4 rest) :
    Takes (room + 1) n Expression.postfixed name rest (· = .ident name) := by
  have hprimary : Takes (room + 1) n Expression.primary (name ++ []) rest (· = .ident name) := by
    refine Expression.takes_primary_name hname hconstant hrest.word ?_
    rw [List.append_nil]
    exact Expression.takes_ident hname hrest.word hrest.call
  rw [List.append_nil] at hprimary
  refine Takes.bind_done hprimary fun found hfound => ?_
  rw [hfound]
  exact (Expression.chains_done hrest).takes

/-- No value starts with the unit. -/
theorem refuses_postfixed {u : CodeUnit} (hu : u.startsValue = false) :
    Refuses (room + 1) n Expression.postfixed (u :: t) := by
  simp only [CodeUnit.startsValue, Bool.or_eq_false_iff] at hu
  obtain ⟨⟨⟨hstart, hdigit⟩, hquote⟩, hmem⟩ := hu
  -- no kind of value starts with the unit, so none is tried
  have hne : ∀ c ∈ ("$([\x7b" : Text), (u == c) = false := by
    intro c hc
    rw [beq_eq_false_iff_ne]
    rintro rfl
    rw [List.contains_iff_mem.mpr hc] at hmem
    exact Bool.noConfusion hmem
  have hnone : List.isPrefixOf ("(" : Text) (u :: t) = false :=
    Text.isPrefixOf_cons_eq_false (hne _ (by decide))
  refine refuses_bind (Takes.refuses_bind (s := []) (takes_check "(") fun found hfound => ?_)
  rw [hfound, hnone]
  refine refuses_call (Takes.refuses_bind (s := []) (takes_look (P := (· = some u)) rfl) ?_)
  rintro _ rfl
  simp only [hne 0x5B (by decide), hne 0x7B (by decide), hne CodeUnit.dollar (by decide), hquote,
    hdigit, hstart, Bool.false_eq_true, if_false]
  exact refuses_expected "expression"

/-- An operator before an operand is no value; the word `not` is read as a name. -/
theorem refuses_assignStmt_unary {words : List Text} {row : Spelling UnaryOp} {e : Expr}
    (hrow : row ∈ Spelling.unary) (hg : IsGap false g) (hword : row.isWord = true → g ≠ [])
    (hw : Phrase.Written words room (.expr false 3 e) s) :
    Refuses (room + 1) 0 assignStmt (row.text ++ (g ++ (s ++ rest))) := by
  -- a sign starts no target, and of the words there is only one
  have hrows : ∀ row ∈ Spelling.unary, (row.isWord = true ∧ row.text = "not") ∨
      ∃ u : CodeUnit, row.text = [u] ∧ u.startsValue = false := by
    simp only [Spelling.unary, List.mem_cons, List.not_mem_nil, or_false]
    rintro row (rfl | rfl | rfl | rfl)
    · exact .inr ⟨_, rfl, by decide⟩
    · exact .inr ⟨_, rfl, by decide⟩
    · exact .inr ⟨_, rfl, by decide⟩
    · exact .inl ⟨rfl, rfl⟩
  rcases hrows row hrow with ⟨hisWord, htext⟩ | ⟨u, htext, hu⟩
  · -- a target may be any name, so `not` is taken, and then the sign is missing
    have hends : EndsExpr false 4 (g ++ (s ++ rest)) :=
      endsExpr_gap hg hw.avoids_gap (fun h => absurd h (hword hisWord)) fun k hk hl =>
        absurd hl (by omega)
    rw [htext]
    exact refuses_assignStmt_of_target (takes_postfixed_name (by decide) (by decide) hends) hg
      (hw.avoids_gap (k := false)) (find?_assign_written hw _ _ _ rfl rest)
  · rw [htext]
    exact refuses_bind (refuses_postfixed hu)

/--
An expression is not read as an assignment. Its longest part that could be a target is followed by
an operator, or by whatever follows the expression.
-/
theorem refuses_assignStmt {words : List Text} {p : Phrase} (hnot : ("not" : Text) ∈ words)
    (h : Phrase.Written words room p s) :
    ∀ level e, p = .expr false level e → level ≤ 4 → ∀ g t : Text, IsGap false g →
      t.Avoids CodeUnit.isSpace → Spelling.assign.find? (·.isAt t) = none →
        EndsExpr false 4 (g ++ t) → Refuses room 0 assignStmt (s ++ (g ++ t)) := by
  have htarget : ∀ {room : Nat} {s : Text} {e : Expr}, Phrase.Written words room (.expr false 4 e) s →
      ∀ g t : Text, IsGap false g → t.Avoids CodeUnit.isSpace →
        Spelling.assign.find? (·.isAt t) = none → EndsExpr false 4 (g ++ t) →
          Refuses room 0 assignStmt (s ++ (g ++ t)) := by
    intro room s e hw g t hg hspace hsign hends
    have htakes := (Phrase.reads_of_written hnot hw).takes (n := 0) rfl (by omega) (by omega) hends
    exact refuses_assignStmt_of_target htakes hg hspace hsign
  -- on the left of an operator the argument goes on, down to the longest part that is a target
  induction h with
  | attr hbase hm =>
    rintro level e ⟨⟩ -
    exact htarget (.attr hbase hm)
  | @tighter b room level e s hle hw ih =>
    rintro level' e' ⟨⟩ hlevel
    by_cases hvalue : level = 4
    · subst hvalue
      exact htarget (.tighter hle hw)
    · exact ih _ _ rfl (by omega)
  | unary hrow hg' hword hw =>
    rintro level e ⟨⟩ - g t - - - -
    simp only [List.append_assoc]
    exact refuses_assignStmt_unary hrow hg' hword hw
  | @binary b room level row left s g' g'' right w hle hrow hw hg' hne hg'' hne' =>
    rename_i ih _
    rintro level' e ⟨⟩ - g t - - - -
    simp only [List.append_assoc]
    refine ih _ _ rfl (by omega) _ _ hg' ?_ ?_ ?_
    · refine ((Spelling.startsWith_binaryTable level hle row hrow).append _).avoids fun u hu => ?_
      rw [Text.startsGap_true_of_isSpace hu]
      rfl
    · cases g'' with
      | nil => exact absurd rfl hne'
      | cons u g'' =>
        rw [List.cons_append, Spelling.find?_append_cons Spelling.isDense_assign
          (Text.startsGap_true_of hg''.startsGap)]
        exact (Spelling.find?_binaryTable_space level hle row hrow).2.2
    · exact (endsExpr_operator hle hrow hg' hne hg'' hne').mono (by omega)
  | _ =>
    rintro level e hp hlevel
    cases hp <;> exact absurd hlevel (by omega)

/-! ### Statements that open with a value -/

theorem takes_stmt_assign {P : Stmt → Prop}
    (hwords : ∀ w ∈ openers, Text.startsWord w (s ++ rest) = false)
    (h : Takes (room + 1) n (call Rule.assignStmt) s rest P) :
    Takes (room + 1) n (stmt indent) s rest P := by
  rw [stmt_eq]
  exact takes_choice (refuses_alternatives hwords) h

/-- The word `pass` is read as a name first, which no sign of an assignment follows. -/
theorem takes_stmt_pass (hg : IsGap false g) (ht : endsItem t = true) :
    Takes (room + 2) 0 (stmt indent) "pass" (g ++ t) (· = .passStmt) := by
  have hword : (g ++ t).Avoids CodeUnit.isIdentifierChar :=
    avoids_isIdentifierChar_of_endsItem hg ht
  have hopens : Text.Opens "pass" (("pass" : Text) ++ (g ++ t)) := ⟨_, rfl, hword⟩
  have hwords : ∀ w ∈ openers, Text.startsWord w (("pass" : Text) ++ (g ++ t)) = false :=
    fun w hw => hopens.startsWord_eq_false (by decide) (isName_of_mem_openers w hw) <| by
      rintro rfl
      revert hw
      decide
  -- an assignment is tried before `pass`: the word is a target, but no sign follows
  have hassign : Refuses (room + 1) 0 assignStmt (("pass" : Text) ++ (g ++ t)) :=
    refuses_assignStmt_of_target
      (takes_postfixed_name (by decide) (by decide) (endsExpr_of_endsItem hg ht)) hg
      (avoids_of_endsItem ht (by decide))
      (Spelling.find?_assign_eq_none (avoids_of_endsItem ht (by decide)))
  have hpass : Takes (room + 1) 0 passStmt "pass" (g ++ t) (· = .passStmt) :=
    Takes.bind_done (takes_expectKeyword hword) fun _ _ => takes_pure rfl
  have hlast : alternatives indent ++ [call .assignStmt, call .passStmt]
      = (alternatives indent ++ [call .assignStmt]) ++ [call .passStmt] := by simp
  rw [stmt_eq, hlast]
  refine takes_choice (fun h hh => ?_) (takes_call hpass)
  rcases List.mem_append.mp hh with hh | hh
  · exact refuses_alternatives hwords h hh
  · rw [List.mem_singleton.mp hh]
    exact refuses_call hassign

/-- No statement is read where an expression stands. -/
theorem refuses_stmt_written {e : Expr} (he : e.Written room false 0 s) (hg : IsGap false g)
    (ht : endsItem t = true) :
    Refuses (room + 2) 0 (call (Rule.stmt indent)) (s ++ (g ++ t)) := by
  have hends : EndsExpr false 0 (g ++ t) := endsExpr_of_endsItem hg ht
  have hwords : ∀ w ∈ words, Text.startsWord w (s ++ (g ++ t)) = false := fun w hw =>
    he.startsWord_eq_false (List.mem_append_right _ hw) hends.word
  have hopeners : ∀ w ∈ openers, w ∈ words := by decide
  refine refuses_call ?_
  show Refuses (room + 1) 0 (choice (alternatives indent ++ [call .assignStmt, call .passStmt])) _
  -- the words are not ahead, and no sign of an assignment follows the target
  refine refuses_choice fun h hh => ?_
  rcases List.mem_append.mp (show h ∈ alternatives indent ++ [_, _] from hh) with hh | hh
  · exact refuses_alternatives (fun w hw => hwords w (hopeners w hw)) h hh
  · simp only [List.mem_cons, List.not_mem_nil, or_false] at hh
    rcases hh with rfl | rfl
    · refine refuses_call (refuses_assignStmt (by decide) he 0 e rfl (by omega) g t hg ?_ ?_ ?_)
      · exact avoids_of_endsItem ht (by decide)
      · exact Spelling.find?_assign_eq_none (avoids_of_endsItem ht (by decide))
      · exact hends.mono (by omega)
    · exact refuses_rule rfl (hwords _ (by decide))

end Statement

namespace Script

variable {room w : Nat} {s rest : Text} {span : Span}

/-! ### Items -/

theorem takes_lineItem_decl {d : Decl}
    (h : Takes room 0 (call (Rule.decl w)) s rest fun v => v.bare = d.bare) :
    Takes room 0 (lineItem w) s rest fun v => v.bare = (Line.decl d span).bare := by
  refine Takes.look_bind takes_here fun start _ => ?_
  refine takes_choice_at 0 rfl ?_ ?_
  · exact fun j hj => absurd hj (Nat.not_lt_zero j)
  · refine Takes.bind_done h fun found hfound => ?_
    refine Takes.look_bind takes_here fun stop _ => takes_pure ?_
    rw [Line.bare_decl, Line.bare_decl, hfound]

theorem takes_lineItem_stmt {st : Stmt}
    (hwords : ∀ word ∈ Declaration.words, Text.startsWord word (s ++ rest) = false)
    (hspace : (s ++ rest).Avoids CodeUnit.isSpace)
    (h : Takes (room + 2) 0 (call (Rule.stmt w)) s rest fun v => v.bare = st.bare) :
    Takes (room + 2) 0 (lineItem w) s rest fun v => v.bare = (Line.stmt st span).bare := by
  refine Takes.look_bind takes_here fun start _ => ?_
  refine takes_choice_at 1 rfl ?_ ?_
  · intro j hj g hg
    obtain rfl : j = 0 := by omega
    obtain rfl := Option.some.inj hg
    exact refuses_bind (Declaration.refuses_decl hwords hspace)
  · refine Takes.bind_done h fun found hfound => ?_
    refine Takes.look_bind takes_here fun stop _ => takes_pure ?_
    rw [Line.bare_stmt, Line.bare_stmt, hfound]

theorem takes_lineItem_expr {e : Expr}
    (hwords : ∀ word ∈ Declaration.words, Text.startsWord word (s ++ rest) = false)
    (hspace : (s ++ rest).Avoids CodeUnit.isSpace)
    (hstmt : Refuses (room + 2) 0 (call (Rule.stmt w)) (s ++ rest))
    (h : Takes (room + 2) 0 Expression.expr s rest (· = e)) :
    Takes (room + 2) 0 (lineItem w) s rest fun v => v.bare = (Line.expr e span).bare := by
  refine Takes.look_bind takes_here fun start _ => ?_
  -- the expression is the last of the three alternatives
  refine takes_choice_at 2 rfl ?_ ?_
  · -- the declarations and the statements are tried first
    intro j hj g hg
    match j with
    | 0 =>
      obtain rfl := Option.some.inj hg
      exact refuses_bind (Declaration.refuses_decl hwords hspace)
    | 1 =>
      obtain rfl := Option.some.inj hg
      exact refuses_bind hstmt
    | j + 2 => exact absurd hj (by omega)
  · refine Takes.bind_done h fun found hfound => ?_
    refine Takes.look_bind takes_here fun stop _ => takes_pure ?_
    rw [Line.bare_expr, Line.bare_expr, hfound]

end Script

end GDScript
