import GDScript.Proofs.Script.Block

/-!
# Headers and branches

What the written pieces of a script start with, and what the rules for headers take: an expression
with a colon and the block behind it, the further branches of an `if`, the cases of a match. The
loop for each list of branches ends where the next line of code is not one of them.
-/

namespace GDScript

open Grammar
open Text (IsGap IsName IsChain IsBreak IsIdle IsIdleLine Ahead Follows StartsItem spaces EndsBlock
  EndsRow EndsElifs EndsBody EndsAt IsNextRow)

/-! ### What a piece starts with -/

theorem Text.IsIdleLine.avoids_isIdentifierChar {l rest : Text} (h : IsIdleLine (fun _ => True) l)
    (hrest : rest.atLineEnd = true) : (l ++ rest).Avoids CodeUnit.isIdentifierChar := by
  obtain ⟨g, c, rfl, hg, hc⟩ := Script.exists_remark h
  rw [List.append_assoc]
  exact Statement.avoids_isIdentifierChar_of_endsItem hg (hc.endsItem hrest)

namespace Piece

variable {isLevel : Nat → Prop} {room w : Nat} {s t rest : Text}

theorem Written.startsCode_branch {c : Condition} (h : Written isLevel room (.branch w c) s) :
    s.StartsCode := by
  cases h with
  | branch he => exact (he.starts.1.append _).startsCode

theorem Written.branch_ne_nil {c : Condition} (h : Written isLevel room (.branch w c) s) :
    s ≠ [] :=
  h.startsCode_branch.ne_nil

/-- The first of the cases of a match, behind idle lines. -/
theorem Written.exists_case {cs : List Condition} (h : Written isLevel room (.cases w cs) s) :
    ∃ f t, s = f ++ (spaces w ++ t) ∧ IsIdle (fun v => ¬isLevel v) f ∧ t.StartsCode := by
  cases h with
  | lastCase hf hbranch => exact ⟨_, _, rfl, hf, hbranch.startsCode_branch⟩
  | @cases room _ c cs f s b t hf hbranch hb =>
    refine ⟨f, s ++ (b ++ t), ?_, hf, hbranch.startsCode_branch.append _⟩
    rw [List.append_assoc, List.append_assoc]

theorem Written.startsItem_decl {d : Decl} (h : Written isLevel room (.decl w d) s)
    (rest : Text) : StartsItem (s ++ rest) := by
  -- a function may start with a modifier, which is one of the words too
  have hfunction : ∀ {v : Text}, (v = "func" ∨ ∃ c, v = FunctionModifier.word c) →
      v ∈ Declaration.words := by
    rintro v (rfl | ⟨c, rfl⟩)
    · decide
    · cases c <;> decide
  cases h with
  | function hmodifier hg hne =>
    obtain ⟨v, hv, hopens⟩ := Declaration.opens_modified hmodifier
      (Declaration.opens_append hg fun h => absurd h hne)
    exact (hopens rest).startsItem_decl (hfunction hv)
  | functionHint hmodifier hg hne =>
    obtain ⟨v, hv, hopens⟩ := Declaration.opens_modified hmodifier
      (Declaration.opens_append hg fun h => absurd h hne)
    exact (hopens rest).startsItem_decl (hfunction hv)
  | «class» hg hne =>
    exact Text.Opens.startsItem_decl (Declaration.opens_append hg (fun h => absurd h hne) rest)
      (by decide)
  | classExtends hg hne =>
    exact Text.Opens.startsItem_decl (Declaration.opens_append hg (fun h => absurd h hne) rest)
      (by decide)

/-- A statement with blocks opens with its word. -/
theorem Written.exists_opens {st : Stmt} (h : Written isLevel room (.stmt w st) s) :
    ∃ word ∈ (["if", "while", "for", "match", "return", "pass"] : List Text),
      ∀ rest, Text.Opens word (s ++ rest) := by
  have hopens : ∀ {word t : Text}, t.Avoids CodeUnit.isIdentifierChar → t ≠ [] →
      ∀ rest, Text.Opens word (word ++ t ++ rest) := fun ht hne rest =>
    ⟨_, List.append_assoc _ _ _, ht.append hne⟩
  -- what is written behind the condition does not join the keyword
  have hmore : ∀ {g s t : Text}, (g ++ s).Avoids CodeUnit.isIdentifierChar → s ≠ [] →
      (g ++ (s ++ t)).Avoids CodeUnit.isIdentifierChar ∧ g ++ (s ++ t) ≠ [] := by
    intro g s t hword hne
    have hne' : g ++ s ≠ [] := List.append_ne_nil_of_right_ne_nil _ hne
    rw [← List.append_assoc]
    exact ⟨hword.append hne', List.append_ne_nil_of_left_ne_nil hne' _⟩
  cases h with
  | «if» hg hword hbranch =>
    obtain ⟨ht, hne⟩ := hmore hword hbranch.branch_ne_nil
    exact ⟨"if", by decide, hopens ht hne⟩
  | @«while» _ _ c g s hg hword hbranch =>
    have hne : g ++ s ≠ [] := List.append_ne_nil_of_right_ne_nil _ hbranch.branch_ne_nil
    exact ⟨"while", by decide, hopens hword hne⟩
  | @«for» _ _ c g s hg hword hbranch =>
    have hne : g ++ s ≠ [] := List.append_ne_nil_of_right_ne_nil _ hbranch.branch_ne_nil
    exact ⟨"for", by decide, hopens hword hne⟩
  | «match» hg hword hsubject =>
    obtain ⟨ht, hne⟩ := hmore hword hsubject.starts.1.ne_nil
    exact ⟨"match", by decide, hopens ht hne⟩

theorem Written.startsItem {ls : List Line} (h : Written isLevel room (.items w ls) s)
    (hrest : rest.atLineEnd = true) : StartsItem (s ++ rest) := by
  -- the first item decides, whatever follows on the line
  cases h with
  | item hl ht =>
    rw [List.append_assoc]
    exact hl.startsItem (ht.avoids_isIdentifierChar hrest)
  | itemSemicolon hl hg =>
    rw [List.append_assoc, List.append_assoc]
    exact hl.startsItem (Statement.avoids_isIdentifierChar_of_endsItem hg rfl)
  | items hl hg =>
    rw [List.append_assoc, List.append_assoc]
    exact hl.startsItem (Statement.avoids_isIdentifierChar_of_endsItem hg rfl)
  | declItem hd => exact hd.startsItem_decl rest
  | stmtItem hst =>
    obtain ⟨word, hword, hopens⟩ := hst.exists_opens
    exact ((hopens rest).startsItem_stmt hword).1

/-! ### The lines of a block and what is ahead -/

theorem Written.ahead_row {ls : List Line} (h : Written isLevel room (.row w ls) s)
    (hrest : EndsRow isLevel w rest) : Ahead (EndsAt isLevel w) (IsNextRow w) (s ++ rest) := by
  cases h with
  | @comment _ _ text span g pad pad' hg hw htext hpad =>
    have hline : IsIdleLine (EndsAt isLevel w) (g ++ CodeUnit.hash :: (pad ++ text ++ pad')) :=
      .comment hg (.inr (Nat.le_of_eq hw)) (htext.not_isLineEnd hpad)
    -- a comment is no line of code, so what is ahead is what follows its line
    cases hrest with
    | nil =>
      rw [List.append_nil]
      exact .ended (f := []) .nil hline
    | cons hb h =>
      have hidle := h.idle (.cons hline hb .nil)
      simpa only [List.append_assoc, List.append_nil] using hidle
  | code hitems =>
    have hstart := hitems.startsItem hrest.atLineEnd
    rw [List.append_assoc]
    exact .code (f := []) .nil hstart.startsCode (.inr ⟨rfl, hstart⟩)

/-- From the start of the lines of a block on, the next line of code is one of them or ends it. -/
theorem Written.ahead_rows {p : Piece} (h : Written isLevel room p s) :
    ∀ w block, p = .rows w block → ∀ rest, EndsRow isLevel w rest →
      Ahead (EndsAt isLevel w) (IsNextRow w) (s ++ rest) := by
  induction h with
  | lastRow hf hrow =>
    rintro w block ⟨⟩ rest hrest
    rw [List.append_assoc]
    exact (hrow.ahead_row hrest).idle (hf.mono fun _ => .inl)
  | rows hf hrow hb hmore _ ih =>
    rintro w block ⟨⟩ rest hrest
    have hnext := Follows.cons hb (ih _ _ rfl rest hrest)
    simp only [List.append_assoc]
    exact Ahead.idle (hf.mono fun _ => .inl) (hrow.ahead_row hnext)
  | _ => rintro w block ⟨⟩

/-- The first line of code among the lines of a block. -/
theorem Written.exists_code {p : Piece} (h : Written isLevel room p s) :
    ∀ w block, p = .rows w block → (∃ l ∈ block, l.isComment = false) →
      ∃ f t, s = f ++ (spaces w ++ t) ∧ IsIdle (fun _ => True) f ∧ t.StartsCode := by
  have hitems : ∀ {room w : Nat} {ls : List Line} {s : Text},
      Written isLevel room (.items w ls) s → s.StartsCode := by
    intro room w ls s h
    have hend : Text.atLineEnd [] = true := rfl
    have hstart := (h.startsItem hend).startsCode
    rwa [List.append_nil] at hstart
  -- a comment at the indentation of the block is idle here: the code is looked for behind it
  induction h with
  | @lastRow room w ls f s hf hrow =>
    rintro w' block ⟨⟩ ⟨l, hl, hcode⟩
    cases hrow with
    | comment =>
      rw [List.mem_singleton.mp hl] at hcode
      exact Bool.noConfusion hcode
    | code h => exact ⟨f, _, rfl, hf.mono fun _ _ => trivial, hitems h⟩
  | @rows room w ls more f s b t hf hrow hb hmore _ ih =>
    rintro w' block ⟨⟩ ⟨l, hl, hcode⟩
    have hf' : IsIdle (fun _ => True) f := hf.mono fun _ _ => trivial
    cases hrow with
    | @comment _ _ text span g pad pad' hg hw htext hpad =>
      have hmem : l ∈ more := by
        refine (List.mem_append.mp hl).resolve_left fun hl => ?_
        rw [List.mem_singleton.mp hl] at hcode
        exact Bool.noConfusion hcode
      obtain ⟨f', t', rfl, hidle, ht'⟩ := ih _ _ rfl ⟨l, hmem, hcode⟩
      have hline : IsIdleLine (fun _ => True) (g ++ CodeUnit.hash :: (pad ++ text ++ pad')) :=
        .comment hg trivial (htext.not_isLineEnd hpad)
      refine ⟨_, t', ?_, hf'.append (.cons hline hb hidle), ht'⟩
      simp only [List.append_assoc]
    | @code room _ _ s h =>
      refine ⟨f, s ++ (b ++ t), ?_, hf', (hitems h).append _⟩
      simp only [List.append_assoc]
  | _ => rintro w block ⟨⟩

end Piece

end GDScript
