import GDScript.Proofs.Script.Piece

/-!
# Statements and declarations with blocks

A statement or a declaration that governs blocks is read by the alternative that its first word
opens, and what it governs is read as the pieces are (`Piece.Reads`). The lines of the last block end
where those of the block around do, so nothing else is asked of the text behind.
-/

namespace GDScript

open Grammar
open Text (IsGap IsName IsChain IsBreak IsIdle IsIdleLine EndsRow EndsElifs EndsBody EndsBlock)

/-! ### Statements -/

namespace Statement

variable {room n indent : Nat} {s rest : Text}

/-- A rule for statements is reached where the text opens with its word. -/
theorem takes_stmt_of_rule {i : Nat} {rule : Rule Stmt} {word : Text} {P : Stmt → Prop}
    (hi : (alternatives indent)[i]? = some (call rule)) (hword : openers[i]? = some word)
    (hopens : Text.Opens word (s ++ rest)) (h : Takes room n rule.body s rest P) :
    Takes (room + 2) n (call (Rule.stmt indent)) s rest P :=
  takes_call (takes_stmt hi hword hopens (takes_call h))

end Statement

namespace Piece

variable {isLevel : Nat → Prop} {room w : Nat} {s t u g rest : Text} {c : Condition}

/-- There is a case at least. -/
theorem Written.cases_ne_nil {cs : List Condition} (h : Written isLevel room (.cases w cs) s) :
    cs ≠ [] := by
  cases h <;> exact List.cons_ne_nil _ _

/-- The condition behind a word, with what it governs. -/
theorem Reads.takes_condition (h : Reads isLevel room (.branch w c) s) (hg : IsGap false g)
    (hrest : EndsBody isLevel w rest) :
    Takes (room + 1) 0 (call (Rule.condition w)) (g ++ s) rest fun v => v.bare = c.bare :=
  takes_call (h g rest hg hrest)

/-- A condition, its branches and perhaps a last one. -/
theorem reads_if {cs : List Condition} {otherwise : Option Block} (hg : IsGap false g)
    (hword : (g ++ s).Avoids CodeUnit.isIdentifierChar)
    (hbranch : Written isLevel room (.branch w c) s)
    (hcs : Written isLevel (room + 1) (.elifs w cs) t)
    (hotherwise : Written isLevel (room + 1) (.otherwise w otherwise) u)
    (h : Reads isLevel room (.branch w c) s) (ht : Reads isLevel (room + 1) (.elifs w cs) t)
    (hu : Reads isLevel (room + 1) (.otherwise w otherwise) u) :
    Reads isLevel (room + 1) (.stmt w (.ifStmt c cs otherwise))
      ("if" ++ (g ++ (s ++ (t ++ u)))) := by
  intro rest hrest
  have hne : g ++ s ≠ [] := List.append_ne_nil_of_right_ne_nil _ hbranch.branch_ne_nil
  -- each part ends where the next one starts, so what stands behind is found from the end on
  have helifs : EndsElifs isLevel w (u ++ rest) := hotherwise.endsElifs_otherwise hrest
  have hbody : EndsBody isLevel w (t ++ (u ++ rest)) := hcs.endsBody_elifs helifs.endsBody
  have hafter : ((g ++ s ++ (t ++ u)) ++ rest).Avoids CodeUnit.isIdentifierChar := by
    rw [List.append_assoc]
    exact hword.append hne
  rw [← List.append_assoc g]
  refine Statement.takes_stmt_of_rule (i := 0) rfl rfl ⟨_, List.append_assoc _ _ _, hafter⟩ ?_
  show Takes (room + 1) 0 (Statement.ifStmt w) _ rest _
  rw [Statement.ifStmt_eq]
  refine Takes.bind (takes_expectKeyword hafter) fun _ _ => ?_
  refine Takes.bind (h.takes_condition hg (by rwa [List.append_assoc])) fun branch hbranch' => ?_
  refine Takes.bind ((ht (u ++ rest) [] helifs).takes rfl) fun elifs helifs' => ?_
  refine Takes.bind_done (hu rest hrest) fun last hlast => takes_pure ?_
  rw [Stmt.bare_ifStmt, Stmt.bare_ifStmt, hbranch', hlast, List.map_reverse, helifs']
  simp

/-- A word with a condition behind it. -/
theorem reads_conditional {make : Condition → Stmt} {rule : Rule Stmt} {word : Text} {i : Nat}
    (hi : (Statement.alternatives w)[i]? = some (call rule)) (hopener : Statement.openers[i]? = some word)
    (hrule : rule.body = do
      expectKeyword word
      let test ← call (.condition w)
      return make test)
    (hmake : ∀ v, (make v).bare = make v.bare) (hg : IsGap false g)
    (hword : (g ++ s).Avoids CodeUnit.isIdentifierChar)
    (hbranch : Written isLevel room (.branch w c) s) (h : Reads isLevel room (.branch w c) s) :
    Reads isLevel (room + 1) (.stmt w (make c)) (word ++ (g ++ s)) := by
  intro rest hrest
  have hne : g ++ s ≠ [] := List.append_ne_nil_of_right_ne_nil _ hbranch.branch_ne_nil
  -- the keyword ends in front of the gap or of the condition itself
  have hafter : (g ++ s ++ rest).Avoids CodeUnit.isIdentifierChar := hword.append hne
  refine Statement.takes_stmt_of_rule hi hopener ⟨_, List.append_assoc _ _ _, hafter⟩ ?_
  rw [hrule]
  refine Takes.bind (takes_expectKeyword hafter) fun _ _ => ?_
  refine Takes.bind_done (h.takes_condition hg hrest.endsElifs.endsBody) fun v hv => takes_pure ?_
  rw [hmake, hmake, hv]

/-- A subject, a colon and cases that are indented further. -/
theorem reads_match {w' : Nat} {subject : Expr} {cs : List Condition} {g' b : Text}
    (hg : IsGap false g) (hword : (g ++ s).Avoids CodeUnit.isIdentifierChar)
    (hsubject : subject.Written room false 0 s) (hg' : IsGap false g')
    (ht : IsIdleLine (fun _ => True) t) (hb : IsBreak b) (hw : w < w')
    (hcs : Written isLevel (room + 1) (.cases w' cs) u)
    (h : Reads isLevel (room + 1) (.cases w' cs) u) :
    Reads isLevel (room + 1) (.stmt w (.matchStmt subject cs))
      ("match" ++ (g ++ (s ++ (g' ++ (":" ++ (t ++ (b ++ u))))))) := by
  intro rest hrest
  have hne : g ++ s ≠ [] := List.append_ne_nil_of_right_ne_nil _ hsubject.starts.1.ne_nil
  have hafter : ((g ++ (s ++ (g' ++ (":" ++ (t ++ (b ++ u)))))) ++ rest).Avoids
      CodeUnit.isIdentifierChar := by
    rw [← List.append_assoc g, List.append_assoc]
    exact hword.append hne
  -- the header ends by finding the indentation of the first case, which the loop then looks for
  obtain ⟨f, r, hsplit, hf, hr⟩ := hcs.exists_case
  have hcases : u ++ rest = f ++ (Text.spaces w' ++ (r ++ rest)) := by
    rw [hsplit, List.append_assoc, List.append_assoc]
  have hends : EndsBlock isLevel w' rest := hrest.endsElifs.endsBody.endsBlock hw
  refine Statement.takes_stmt_of_rule (i := 3) rfl rfl ⟨_, List.append_assoc _ _ _, hafter⟩ ?_
  show Takes (room + 1) 0 (Statement.matchStmt w) _ rest _
  rw [Statement.matchStmt_eq]
  refine Takes.bind (takes_expectKeyword hafter) fun _ _ => ?_
  refine Takes.bind (takes_skipSpaces hg ?_) fun _ _ => ?_
  · rw [List.append_assoc]
    exact hsubject.avoids_gap (k := false)
  refine Takes.bind (hsubject.takes rfl ?_) fun v hv => ?_
  · rw [List.append_assoc]
    exact endsExpr_separator hg' (by decide)
  refine Takes.bind (takes_skipSpaces hg' rfl) fun _ _ => ?_
  refine Takes.bind (takes_expect ":") fun _ _ => ?_
  rw [← List.append_assoc t]
  refine Takes.bind (takes_blockOpening ht hb (hf.mono fun _ _ => trivial) (hr.append rest) hw hcases)
    fun width hwidth => ?_
  rw [hwidth]
  refine Takes.bind_done ((h [] rest [] .nil hends).takes rfl) fun found hfound => ?_
  rw [List.append_nil] at hfound
  -- a match without cases would be refused
  have hsome : found.isEmpty = false := by
    rw [List.isEmpty_eq_false_iff]
    rintro rfl
    exact hcs.cases_ne_nil (by simpa using hfound.symm)
  rw [hsome]
  refine takes_pure ?_
  rw [Stmt.bare_matchStmt, Stmt.bare_matchStmt, hv, List.map_reverse, hfound, List.reverse_reverse]

end Piece

/-! ### Declarations -/

namespace Declaration

open Expression (name)

variable {room n indent : Nat} {s t g rest : Text}

/-- The words that the declaration of a function opens with. -/
theorem isName_functionWord {w : Text} (hw : w = "func" ∨ ∃ c, w = FunctionModifier.word c) :
    IsName w := by
  rcases hw with rfl | ⟨c, rfl⟩
  · decide
  · cases c <;> decide +kernel

/-- No declaration that is tried before functions opens with their words. -/
theorem not_mem_before_function {w : Text} (hw : w = "func" ∨ ∃ c, w = FunctionModifier.word c) :
    ∀ j < 5, w ∉ openers.getD j [] := by
  rcases hw with rfl | ⟨c, rfl⟩
  · decide
  · cases c <;> decide

/-- The colon of a header, and what it governs. -/
theorem takes_governed {body : Block} {f : Block → Decl} {P : Decl → Prop}
    (hbody : Takes room n (call (Rule.indentedBlock indent)) t rest
      fun v => Block.bare v = Block.bare body)
    (hf : ∀ v, Block.bare v = Block.bare body → P (f v)) :
    Takes room n (do
      expect ":"
      let body ← call (Rule.indentedBlock indent)
      return f body) (":" ++ t) rest P :=
  Takes.bind (takes_expect ":") fun _ _ => Takes.bind_done hbody fun v hv => takes_pure (hf v hv)

/-- A function, with the words in front of it and the parts of its head in turn. -/
theorem takes_functionDecl {modifier : Option FunctionModifier} {m name' g' g'' r : Text}
    {arguments : List FunctionArg} {returnType : Option Text} {body : Block}
    (hmodifier : Text.Modified FunctionModifier.word modifier m) (hg : IsGap false g) (hne : g ≠ [])
    (hname : IsName name') (hg' : IsGap false g')
    (harguments : Text.Parenthesized (FunctionArg.Written room) arguments s)
    (hg'' : IsGap false g'') (hspace : (r ++ (":" ++ t)).StartsWith fun u => !u.isSpace)
    (hreturn : Takes room 0 (typeAfter (Reader.consume "->")) r (":" ++ t ++ rest) (· = returnType))
    (hbody : Takes room 0 (call (Rule.indentedBlock indent)) t rest
      fun v => Block.bare v = Block.bare body) :
    Takes room 0 (functionDecl indent)
      (m ++ ("func" ++ (g ++ (name' ++ (g' ++ (s ++ (g'' ++ (r ++ (":" ++ t))))))))) rest
      fun v => v.bare = (Decl.functionDecl ⟨modifier, name', arguments, returnType⟩ body).bare := by
  -- the parenthesis is what ends the name and the gap behind it
  have hparenthesis : ∀ (p : CodeUnit → Bool) (r : Text), p 0x28 = false → (s ++ r).Avoids p := by
    intro p r hp
    cases harguments <;> exact hp
  have hopens : ∀ r : Text, Text.Opens "func" (("func" : Text) ++ (g ++ r)) := fun r =>
    ⟨_, rfl, hg.avoids_isIdentifierChar hne _⟩
  have hwords : ∀ m : FunctionModifier, IsName m.word ∧ ("func" : Text) ≠ m.word := by
    intro m
    cases m <;> exact ⟨by decide +kernel, by decide⟩
  -- the modifiers are tried before `func`, and none of them is taken for it
  refine takes_modified hmodifier mem_all_function (fun c => (hwords c).1) ?_ rfl ?_ ?_
  · intro c c'
    cases c <;> cases c' <;> decide
  · intro c
    rw [List.append_assoc, List.append_assoc g]
    exact (hopens _).startsWord_eq_false (by decide) (hwords c).1 (hwords c).2
  refine takes_keyword_name hg hne hname ?_ ?_
  · rw [List.append_assoc, List.append_assoc s]
    exact hg'.endsWord (hparenthesis _ _ rfl)
  refine Takes.bind (takes_skipSpaces hg' ?_) fun _ _ => ?_
  · rw [List.append_assoc s]
    exact hparenthesis _ _ rfl
  refine Takes.bind (takes_parenthesized_written (fun _ _ h => h.startsOperand)
    (fun _ _ h _ _ _ hg hu => takes_functionArg h hg hu) harguments) fun found hfound => ?_
  refine Takes.bind (takes_skipSpaces hg'' ((hspace.append rest).avoids (by simp))) fun _ _ => ?_
  refine Takes.bind hreturn fun hint hhint => ?_
  refine takes_governed hbody fun v hv => ?_
  rw [Decl.bare_functionDecl, Decl.bare_functionDecl, hfound, hhint, hv]

/-- A class, with the base that it may have. -/
theorem takes_classDecl {name' g' r : Text} {base : Option Text} {body : Block}
    (hg : IsGap false g) (hne : g ≠ []) (hname : IsName name') (hg' : IsGap false g')
    (hspace : (r ++ (":" ++ t)).StartsWith fun u => !u.isSpace)
    (hword : (g' ++ (r ++ (":" ++ t)) ++ rest).Avoids CodeUnit.isIdentifierChar)
    (hbase : Takes room 0 (typeAfter (Reader.keyword "extends")) r (":" ++ t ++ rest) (· = base))
    (hbody : Takes room 0 (call (Rule.indentedBlock indent)) t rest
      fun v => Block.bare v = Block.bare body) :
    Takes room 0 (classDecl indent)
      ("class" ++ (g ++ (name' ++ (g' ++ (r ++ (":" ++ t)))))) rest
      fun v => v.bare = (Decl.classDecl name' base body).bare := by
  refine takes_keyword_name hg hne hname hword ?_
  refine Takes.bind (takes_skipSpaces hg' ((hspace.append rest).avoids (by simp))) fun _ _ => ?_
  refine Takes.bind hbase fun hint hhint => ?_
  refine takes_governed hbody fun v hv => ?_
  rw [Decl.bare_classDecl, Decl.bare_classDecl, hhint, hv]

end Declaration

namespace Piece

open Declaration

variable {isLevel : Nat → Prop} {room w : Nat} {s t g name' g' h h' rest : Text} {block : Block}

/-- A declaration is read by its rule, where its word is ahead. -/
theorem reads_decl_of_rule {d : Decl} {i : Nat} {rule : Rule Decl} {word : Text}
    (hi : (alternatives w)[i]? = some (call rule)) (hword : IsName word)
    (hbefore : ∀ j < i, word ∉ openers.getD j []) (hopens : ∀ rest, Text.Opens word (s ++ rest))
    (h : ∀ rest, EndsRow isLevel w rest → Takes room 0 rule.body s rest fun v => v.bare = d.bare) :
    Reads isLevel room (.decl w d) s := fun rest hrest =>
  takes_call (takes_decl hi hword hbefore (hopens rest) (takes_call (h rest hrest)))

/-- A function, however its type is given. -/
theorem reads_functionOf {modifier : Option FunctionModifier} {m g'' r : Text}
    {arguments : List FunctionArg} {returnType : Option Text}
    (hmodifier : Text.Modified FunctionModifier.word modifier m) (hg : IsGap false g) (hne : g ≠ [])
    (hname : IsName name') (hg' : IsGap false g')
    (harguments : Text.Parenthesized (FunctionArg.Written room) arguments s)
    (hg'' : IsGap false g'') (hspace : (r ++ (":" ++ t)).StartsWith fun u => !u.isSpace)
    (hreturn : ∀ rest, Takes room 0 (typeAfter (Reader.consume "->")) r (":" ++ t ++ rest)
      (· = returnType))
    (hbody : Reads isLevel room (.body w block) t) :
    Reads isLevel room (.decl w (.functionDecl ⟨modifier, name', arguments, returnType⟩ block))
      (m ++ ("func" ++ (g ++ (name' ++ (g' ++ (s ++ (g'' ++ (r ++ (":" ++ t))))))))) := by
  -- the first word of the declaration is a modifier or `func`
  obtain ⟨v, hv, hopens⟩ := opens_modified hmodifier (opens_append hg fun h => absurd h hne)
  refine reads_decl_of_rule (i := 5) rfl (isName_functionWord hv) (not_mem_before_function hv) hopens
    fun rest hrest => ?_
  exact takes_functionDecl hmodifier hg hne hname hg' harguments hg'' hspace (hreturn rest)
    (hbody rest hrest.endsElifs.endsBody)

/-- A function without a type. -/
theorem reads_function {modifier : Option FunctionModifier} {m g'' : Text}
    {arguments : List FunctionArg} (hmodifier : Text.Modified FunctionModifier.word modifier m)
    (hg : IsGap false g) (hne : g ≠ []) (hname : IsName name') (hg' : IsGap false g')
    (harguments : Text.Parenthesized (FunctionArg.Written room) arguments s)
    (hg'' : IsGap false g'') (hbody : Reads isLevel room (.body w block) t) :
    Reads isLevel room (.decl w (.functionDecl ⟨modifier, name', arguments, none⟩ block))
      (m ++ ("func" ++ (g ++ (name' ++ (g' ++ (s ++ (g'' ++ (":" ++ t)))))))) :=
  reads_functionOf (r := []) hmodifier hg hne hname hg' harguments hg'' rfl
    (fun _ => takes_typeAfter_nothing (takes_consume_nothing rfl)) hbody

/-- A function with a type behind an arrow. -/
theorem reads_functionHint {modifier : Option FunctionModifier} {m g'' hint : Text}
    {arguments : List FunctionArg} (hmodifier : Text.Modified FunctionModifier.word modifier m)
    (hg : IsGap false g) (hne : g ≠ []) (hname : IsName name') (hg' : IsGap false g')
    (harguments : Text.Parenthesized (FunctionArg.Written room) arguments s)
    (hg'' : IsGap false g'') (hh : IsGap false h) (hhint : IsChain CodeUnit.dot hint)
    (hh' : IsGap false h') (hbody : Reads isLevel room (.body w block) t) :
    Reads isLevel room (.decl w (.functionDecl ⟨modifier, name', arguments, some hint⟩ block))
      (m ++ ("func" ++ (g ++ (name' ++ (g' ++ (s ++ (g'' ++
        ("->" ++ (h ++ (hint ++ (h' ++ (":" ++ t)))))))))))) := by
  have hreturn : ∀ rest : Text, Takes room 0 (typeAfter (Reader.consume "->"))
      ("->" ++ (h ++ (hint ++ h'))) (":" ++ t ++ rest) (· = some hint) := fun rest =>
    takes_typeAfter hh hhint hh' (takes_consume "->") rfl rfl rfl
  -- nothing but the arrow stands behind the arguments
  have hspace : (("->" ++ (h ++ (hint ++ h')) : Text) ++ (":" ++ t)).StartsWith
      fun u => !u.isSpace := rfl
  have hread := reads_functionOf hmodifier hg hne hname hg' harguments hg'' hspace hreturn hbody
  simpa only [List.append_assoc] using hread

/-- A class without a base. -/
theorem reads_class (hg : IsGap false g) (hne : g ≠ []) (hname : IsName name')
    (hg' : IsGap false g') (hbody : Reads isLevel room (.body w block) t) :
    Reads isLevel room (.decl w (.classDecl name' none block))
      ("class" ++ (g ++ (name' ++ (g' ++ (":" ++ t))))) := by
  refine reads_decl_of_rule (i := 4) rfl (by decide) (by decide)
    (opens_append hg fun h => absurd h hne) fun rest hrest => ?_
  refine takes_classDecl (r := []) hg hne hname hg' rfl ?_
    (takes_typeAfter_nothing (takes_keyword_nothing rfl)) (hbody rest hrest.endsElifs.endsBody)
  rw [List.append_assoc]
  exact hg'.endsWord rfl

theorem reads_classExtends {base : Text} (hg : IsGap false g) (hne : g ≠ [])
    (hname : IsName name') (hg' : IsGap false g') (hne' : g' ≠ []) (hh : IsGap false h)
    (hne'' : h ≠ []) (hbase : IsChain CodeUnit.dot base) (hh' : IsGap false h')
    (hbody : Reads isLevel room (.body w block) t) :
    Reads isLevel room (.decl w (.classDecl name' (some base) block))
      ("class" ++ (g ++ (name' ++ (g' ++ ("extends" ++ (h ++ (base ++ (h' ++ (":" ++ t))))))))) := by
  refine reads_decl_of_rule (i := 4) rfl (by decide) (by decide)
    (opens_append hg fun h => absurd h hne) fun rest hrest => ?_
  -- the name of the base goes on to the gap in front of the colon
  have hextends : Takes room 0 (typeAfter (Reader.keyword "extends"))
      ("extends" ++ (h ++ (base ++ h'))) (":" ++ t ++ rest) (· = some base) := by
    refine takes_typeAfter hh hbase hh' (takes_keyword ?_) rfl rfl rfl
    rw [List.append_assoc]
    exact hh.avoids_isIdentifierChar hne'' _
  have hspace : (("extends" ++ (h ++ (base ++ h')) : Text) ++ (":" ++ t)).StartsWith
      fun u => !u.isSpace := rfl
  have hclass : Takes room 0 (classDecl w) _ rest _ := takes_classDecl hg hne hname hg' hspace
    (by rw [List.append_assoc]; exact hg'.avoids_isIdentifierChar hne' _) hextends
    (hbody rest hrest.endsElifs.endsBody)
  simp only [List.append_assoc] at hclass
  exact hclass

end Piece

end GDScript
