import GDScript.Proofs.Indentation.Opening

/-!
# Headers have bodies

What a header measures ahead is what it then gets: a block of that width starts with the line that has
been measured, and so does a search for the first case of a `match`
(`Statement.blockOpening_agrees`). So no header has a body without code, in a rule that reads one
(`Script.yields_indentedBlock_hasCode`) or in a whole script (`Script.hasCode_of_parse`). A `match` need
not ask whether it has found a case (`Statement.run_matchStmtOr`).
-/

namespace GDScript

open Grammar

/-- A run that cannot fail finishes. -/
theorem Outcome.Meets.exists_finished {α : Type} {Q : α → Cursor → Journal → Prop} {o : Outcome α}
    (h : o.Meets Q fun _ _ => False) : ∃ v c journal, o = .finished v c journal ∧ Q v c journal := by
  cases o with
  | finished v c journal => exact ⟨v, c, journal, rfl, h⟩
  | failed => exact h.elim

namespace Grammar

variable {R : Type → Type} [RuleSet R] {α β : Type} {room : Nat} {scope : Scope} {c : Cursor}
  {journal : Journal}

/-- Only what comes after what the first grammar finds can make two sequences differ. -/
theorem run_bind_congr {g : Grammar R α} {f f' : α → Grammar R β}
    (h : ∀ v c' journal', run room g scope c journal = .finished v c' journal' →
      run room (f v) scope c' journal' = run room (f' v) scope c' journal') :
    run room (g >>= f) scope c journal = run room (g >>= f') scope c journal := by
  cases hg : run room g scope c journal with
  | finished v c' journal' => rw [run_bind_of_finished hg, run_bind_of_finished hg, h v c' journal' hg]
  | failed failure journal' => rw [run_bind_of_failed hg, run_bind_of_failed hg]

end Grammar

/-! ### Headers -/

namespace Statement

variable {room width : Nat} {c : Cursor}

/-- Where a header opens a block, the next line of code is there, indented by what was measured. -/
theorem yields_blockOpening_hasNext (header : Nat) (c : Cursor) :
    Yields room (blockOpening header) c fun level c' => header < level ∧ c'.ahead.HasNext level := by
  refine ((yields_blockOpening_nextCode header).and (yields_blockOpening_lt header c)).mono ?_
  rintro level c' ⟨⟨-, hcode, hne, hlevel⟩, hlt⟩
  exact ⟨hlt, ⟨hcode ▸ hne, hcode ▸ hlevel⟩⟩

/-- Cases of the width of the next line of code are not missing. -/
theorem yields_cases_ne_nil (h : c.ahead.HasNext width) :
    Yields room (iterate (caseTurn width) []) c fun cases _ => cases ≠ [] := by
  -- until there is a case, the cursor has not been moved, so the line is found
  refine Yields.loop_of_advances (turnsAdvance_caseTurn room width)
    (I := fun cases c' => cases = [] → c' = c) (fun _ => rfl) fun cases c' hkept => ?_
  refine Yields.bind (P := fun found _ => cases = [] → found = true)
    (yields_read fun found n hread hnil => ?_) fun found c'' hfound => ?_
  · rw [hkept hnil, h.seekLine_eq] at hread
    cases hread
    rfl
  · split
    · exact (yields_reaches room _ c'').bind fun branch _ _ =>
        yields_pure fun hnil => absurd hnil (List.cons_ne_nil _ _)
    · next hnot => exact yields_pure fun hnil => hnot (hfound hnil)

/-- A `match` that does something else when there is no case. -/
def matchStmtOr (missing : Grammar Rule Stmt) (indent : Nat) : Grammar Rule Stmt := do
  expectKeyword "match"
  skipSpaces
  let subject ← Expression.expr
  skipSpaces
  expect ":"
  let width ← blockOpening indent
  let cases ← iterate (caseTurn width) []
  if cases.isEmpty then missing else return .matchStmt subject cases.reverse

theorem matchStmt_eq_matchStmtOr (indent : Nat) :
    matchStmt indent = matchStmtOr (expected "match case") indent := rfl

/-- Whatever it is, it is never done. -/
theorem run_matchStmtOr (missing : Grammar Rule Stmt) (indent room : Nat) :
    Grammar.run room (matchStmtOr missing indent) = Grammar.run room (matchStmt indent) := by
  funext scope c journal
  rw [matchStmt_eq_matchStmtOr]
  refine run_bind_congr fun _ _ _ _ => run_bind_congr fun _ _ _ _ => ?_
  refine run_bind_congr fun subject _ _ _ => run_bind_congr fun _ _ _ _ => ?_
  refine run_bind_congr fun _ c₁ _ _ => run_bind_congr fun width c₂ _ hopening => ?_
  obtain ⟨-, hnext⟩ := yields_blockOpening_hasNext indent c₁ _ _ _ _ _ hopening
  refine run_bind_congr fun cases _ _ hcases => ?_
  have hne := yields_cases_ne_nil hnext _ _ _ _ _ hcases
  rw [if_neg, if_neg] <;> exact mt List.isEmpty_iff.mp hne

end Statement

namespace Script

variable {source : Text} {room level : Nat}

/-- A line of the block is no comment. -/
def HasCode (block : Block) : Prop := ∃ l ∈ block, l.isComment = false

/-- What opens with a line of code holds it. -/
theorem Opens.hasCode {c code c' : Cursor} {scope : Scope} {journal journal' : Journal}
    {lines : Block} (h : Opens level c code scope journal room (.finished lines c' journal')) :
    HasCode lines := by
  cases h with
  | found _ hitems _ =>
    obtain ⟨l, hl⟩ := List.exists_mem_of_ne_nil _ hitems.ne_nil
    exact ⟨l, List.mem_append_left _ (List.mem_append_right _ hl), hitems.isComment_eq l hl⟩

/-- No header gets a block without code. -/
theorem yields_indentedBlock_hasCode (header : Nat) (c : Cursor) :
    Yields room (call (Rule.indentedBlock header)) c fun body _ => HasCode body := by
  refine yields_call fun room => (Statement.yields_blockOpening_hasNext header c).bind ?_
  rintro level c' ⟨-, hnext⟩ scope journal lines c'' journal' hrun
  have hopens := opens_block hnext room scope journal
  rw [hrun] at hopens
  exact hopens.hasCode

/-! ### Scripts -/

/-- Every block of a line that stands at its level has code, and is indented itself. -/
theorem governs_bodies {l : Line} (h : l.Governs source level) {body : Block}
    (hbody : body ∈ l.bodies) : HasCode body ∧ ∃ level, body.IsIndented source level := by
  -- along the bodies of one item, each behind its own header
  have hheaded : ∀ {bodies : List Block} {width start : Nat}, Headed source width start bodies →
      ∀ body ∈ bodies, HasCode body ∧ ∃ level, Block.IsIndented source level body := by
    intro bodies
    induction bodies with
    | nil => exact fun _ body h => absurd h List.not_mem_nil
    | cons first bodies ih =>
      intro width start h body hbody
      cases h with
      | mk _ _ hfirst _ hindented hrest =>
        rcases List.mem_cons.mp hbody with rfl | hbody
        · have hcode := List.find?_some hfirst
          exact ⟨⟨_, List.mem_of_find?_eq_some hfirst, by simpa using hcode⟩, _, hindented⟩
        · cases hrest with
          | nil => exact absurd hbody List.not_mem_nil
          | next _ hnext => exact ih hnext body hbody
  have hcontinued : ∀ {bodies : List Block} {width place : Nat},
      Continued source width place bodies →
        ∀ body ∈ bodies, HasCode body ∧ ∃ level, Block.IsIndented source level body := by
    intro bodies width place h
    cases h with
    | nil => exact fun body h => absurd h List.not_mem_nil
    | next _ hnext => exact hheaded hnext
  cases h with
  | flat hnone =>
    rw [hnone] at hbody
    exact absurd hbody List.not_mem_nil
  | headed _ hbodies => exact hheaded hbodies body hbody
  | cases _ _ hcases => exact hcontinued hcases body hbody

theorem hasCode_of_within {block inner : Block} (h : block.IsIndented source level)
    (hinner : inner.Within block) : HasCode inner := by
  induction hinner generalizing level with
  | body hl hbody =>
    cases h with
    | mk _ hgoverns => exact (governs_bodies (hgoverns _ hl) hbody).1
  | deeper hl hmiddle _ ih =>
    cases h with
    | mk _ hgoverns =>
      obtain ⟨-, level, hindented⟩ := governs_bodies (hgoverns _ hl) hmiddle
      exact ih hindented

theorem hasCode_of_parse {depth : Option Int} {block : Block} (h : parse source depth = .ok block)
    {inner : Block} (hinner : inner.Within block) : HasCode inner := by
  obtain ⟨_, hindented⟩ := exists_found_of_parse h fun room =>
    Rule.areIndented source room .file (Cursor.ofText source)
  exact hasCode_of_within
    (hindented (Cursor.isIn_ofText source) (Cursor.startsLine_ofText source)) hinner

end Script

namespace Statement

end Statement

end GDScript
