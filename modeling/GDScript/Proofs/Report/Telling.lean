import GDScript.Proofs.Report.Stop
import GDScript.Proofs.Uses

/-!
# Runs that tell the truth

A run tells the truth about a text when every failure that it writes down is true of the text, and
when it fails with such a failure (`Grammar.Tells`). What uses only honest readers does so from every
cursor in the text. Blocks measure indentation, which is true only from the start or the end of a
line on (`Cursor.StartsLine`); that is where they are read from.
-/

namespace GDScript

open Grammar

/-! ### Where a line starts -/

namespace Cursor

variable {source : Text} {c c' : Cursor}

/-- What is behind and what is ahead make up the text. -/
theorem IsIn.take_append (h : c.IsIn source) :
    source.take c.location.offset ++ c.ahead = source := by
  rw [h.ahead_eq, List.take_append_drop]

theorem IsIn.length_take (h : c.IsIn source) :
    (source.take c.location.offset).length = c.location.offset :=
  List.length_take_of_le h.offset_le

theorem IsIn.take_advanceBy (h : c.IsIn source) (n : Nat) :
    source.take (c.advanceBy n).location.offset
      = source.take c.location.offset ++ c.ahead.take n := by
  rw [offset_advanceBy, List.take_add, ← h.ahead_eq, ← List.take_eq_take_min]

/-- The cursor stands at the start of a line of the text or at the end of one. -/
def StartsLine (source : Text) (c : Cursor) : Prop :=
  Text.IsLines (source.take c.location.offset) ∨ c.ahead.atLineEnd = true

theorem startsLine_ofText (source : Text) : (ofText source).StartsLine source := .inl rfl

end Cursor

/-- The complaint that a cursor in the text has about a place ahead is true. -/
theorem Reader.IsHonest.isTrueOf {α : Type} {reader : Reader α} (h : reader.IsHonest)
    {source : Text} {c : Cursor} (hc : c.IsIn source) {complaint : Complaint}
    (hread : reader c.ahead = .fault complaint) : complaint.IsTrueOf source c.location.offset := by
  have htrue := h (source.take c.location.offset) c.ahead complaint hread
  rwa [hc.take_append, hc.length_take] at htrue

/-! ### Runs that tell the truth -/

/-- Every failure that has been written down is true of the text. -/
def Journal.IsTrueOf (source : Text) (journal : Journal) : Prop :=
  ∀ e ∈ journal.failures, e.IsTrueOf source

/-- The failure of a run, and every one before it, is true of the text. -/
def Failure.Tells (source : Text) (failure : Failure) (journal : Journal) : Prop :=
  journal.IsTrueOf source ∧ ∃ e, failure = .parse e ∧ e.IsTrueOf source

theorem Scope.isTrueOf_tooDeep (scope : Scope) (location : Location) (source : Text) :
    (scope.tooDeep location).IsTrueOf source :=
  ⟨⟨_, rfl, .nestingTooDeep⟩, fun _ => rfl⟩

namespace Grammar

variable {R : Type → Type} [RuleSet R] {α β σ : Type} {source : Text} {room : Nat} {c : Cursor}

/-- Runs of the grammar from the cursor only write down and raise what is true of the text. -/
def Tells (source : Text) (room : Nat) (g : Grammar R α) (c : Cursor) : Prop :=
  ∀ journal, journal.IsTrueOf source →
    Leads room g c journal (fun _ _ journal' => journal'.IsTrueOf source) (Failure.Tells source)

theorem tells_pure (v : α) : Tells source room (Pure.pure v : Grammar R α) c :=
  fun _ hjournal => leads_pure hjournal

/-- What comes after a grammar is asked about from where the grammar ends. -/
theorem Tells.bind {g : Grammar R α} {f : α → Grammar R β} {P : α → Cursor → Prop}
    (hc : c.IsIn source) (hg : Tells source room g c) (hP : Yields room g c P)
    (hf : ∀ v c', P v c' → c'.IsIn source → Tells source room (f v) c') :
    Tells source room (g >>= f) c := by
  intro journal hjournal
  refine ((hg journal hjournal).and_yields (hP.and (yields_reaches room g c))).bind ?_
  exact fun v c' journal' hv => hf v c' hv.1.1 (hc.reaches hv.1.2) journal' hv.2

theorem Tells.bind_any {g : Grammar R α} {f : α → Grammar R β} (hc : c.IsIn source)
    (hg : Tells source room g c) (hf : ∀ v c', c'.IsIn source → Tells source room (f v) c') :
    Tells source room (g >>= f) c :=
  hg.bind (P := fun _ _ => True) hc (fun _ _ _ _ _ _ => trivial) fun v c' _ => hf v c'

theorem tells_read {reader : Reader α} (hc : c.IsIn source)
    (h : ∀ complaint, reader c.ahead = .fault complaint →
      complaint.IsTrueOf source c.location.offset) :
    Tells source room (read reader : Grammar R α) c := by
  refine fun journal hjournal => leads_read (fun _ _ _ => hjournal) fun complaint scope hread => ?_
  have htrue := (h complaint hread).error hc scope
  exact ⟨List.forall_mem_cons.mpr ⟨htrue, hjournal⟩, _, rfl, htrue⟩

/-- Looking ahead leaves the cursor where it is. -/
theorem tells_look_bind {f : Text → α} {k : α → Grammar R β}
    (h : Tells source room (k (f c.ahead)) c) : Tells source room (look f >>= k) c :=
  fun journal hjournal => leads_look_bind (h journal hjournal)

theorem Tells.bracketed {g : Grammar R α} (hg : Tells source room g c) :
    Tells source room (bracketed g) c :=
  fun journal hjournal => (hg journal hjournal).bracketed

theorem Tells.attempt {g : Grammar R α} (hg : Tells source room g c) :
    Tells source room (attempt g) c :=
  fun journal hjournal => (hg journal hjournal).attempt (fun _ _ _ htells => htells.1)
    fun _ _ _ htells => htells

theorem Tells.orElse {g h : Grammar R α} (hg : Tells source room g c)
    (hh : Tells source room h c) : Tells source room (orElse g h) c :=
  fun journal hjournal => (hg journal hjournal).orElse fun _ journal' _ htells =>
    (hh journal' htells.1).mono (fun _ _ _ hjournal'' => hjournal'')
      fun _ _ htells' => ⟨htells', fun _ => ⟨htells'.1, htells.2⟩⟩

theorem Tells.rewindIf {forget : α → Bool} {g : Grammar R α} (hg : Tells source room g c) :
    Tells source room (rewindIf forget g) c :=
  fun journal hjournal => (hg journal hjournal).rewindIf

/-- What holds of a state and a cursor before each turn. -/
theorem Tells.loop {turn : σ → Grammar R (Next σ)} {x : σ} {I : σ → Cursor → Prop} (hx : I x c)
    (h : ∀ y c', I y c' → Tells source room (turn y) c')
    (hI : ∀ y c', I y c' → Yields room (turn y) c' fun next c'' => I next.state c'') :
    Tells source room (iterate turn x) c := by
  intro journal hjournal
  refine Leads.loop (I := fun y c' journal' => I y c' ∧ journal'.IsTrueOf source) ⟨hx, hjournal⟩
    (fun _ _ _ hy => hy.2) fun y c' journal' hy => ?_
  refine ((h y c' hy.1 journal' hy.2).and_yields (hI y c' hy.1)).mono (fun next _ _ hnext => ?_)
    fun _ _ htells => htells
  cases next with
  | again z => exact hnext
  | done z => exact hnext.2

/-- A grammar tells the truth when the readers that it uses are honest, and the rules are. -/
theorem Uses.tells {m : Means R} {g : Grammar R α} (h : Uses m g) (hretries : ¬m.retries)
    (hreads : ∀ {β : Type} (reader : Reader β), m.reads reader → reader.IsHonest)
    (hcalls : ∀ {β : Type} (rule : R β) c, m.calls rule → c.IsIn source →
      Tells source room (call rule) c) (hc : c.IsIn source) : Tells source room g c := by
  induction g generalizing c with
  | pure v => exact tells_pure v
  | bind g f ih ihf => exact (ih h.1 hc).bind_any hc fun v c' hc' => ihf v (h.2 v) hc'
  | read reader => exact tells_read hc fun _ hread => (hreads reader h).isTrueOf hc hread
  | here => exact fun _ hjournal => leads_here hjournal
  | nesting => exact fun _ hjournal => leads_nesting fun _ => hjournal
  | call rule => exact hcalls rule c h hc
  | bracketed g ih => exact (ih h hc).bracketed
  | orElse g k ih ih' => exact (ih h.1 hc).orElse (ih' h.2 hc)
  | rewindIf forget g ih => exact (ih h hc).rewindIf
  | iterate turn x ih =>
    -- a turn leaves the cursor within the source, where the next one starts
    exact Tells.loop (I := fun _ c' => c'.IsIn source) hc (fun y c' hc' => ih y (h y) hc')
      fun y c' hc' => (yields_reaches room _ c').mono fun _ _ hreaches => hc'.reaches hreaches
  | note | abort => exact absurd h hretries
  | attempt | blame | watch => exact absurd h.1 hretries
  | within => exact h.elim

end Grammar

/-! ### The rules of a script -/

/-- The rule may be entered from every cursor in a text. -/
def Rule.EntersAnywhere : {α : Type} → Rule α → Prop
  | _, .file | _, .block _ _ => False
  | _, _ => True

/-- Honest readers, and rules that may be entered from everywhere. -/
def Rule.anywhereMeans : Means Rule :=
  ⟨fun reader => reader.IsHonest, fun rule => rule.EntersAnywhere, False⟩

@[simp] theorem Rule.reads_anywhereMeans {β : Type} (reader : Reader β) :
    anywhereMeans.reads reader = reader.IsHonest := rfl

@[simp] theorem Rule.calls_anywhereMeans {β : Type} (rule : Rule β) :
    anywhereMeans.calls rule = rule.EntersAnywhere := rfl

theorem Rule.IsPlain.entersAnywhere {α : Type} {rule : Rule α} (h : rule.IsPlain) :
    rule.EntersAnywhere := by
  cases rule <;> trivial

theorem Rule.uses_anywhere {α : Type} {g : Grammar Rule α} (h : Uses plainMeans g) :
    Uses anywhereMeans g :=
  h.mono (fun _ hreader => hreader) (fun _ hrule => hrule.entersAnywhere) id

/-- The rule ends with the opening of a block. -/
def Rule.OpensBlock : {α : Type} → Rule α → Prop
  | _, .indentedBlock _ | _, .matchStmt _ => True
  | _, _ => False

/-- What reads no block itself and measures no indentation uses honest readers only. -/
theorem Rule.uses_body_anywhere {α : Type} {rule : Rule α} (h : rule.EntersAnywhere)
    (hopens : ¬rule.OpensBlock) : Uses anywhereMeans rule.body := by
  have hname := uses_anywhere Expression.uses_name
  have hexpr := uses_anywhere Expression.uses_expr
  cases rule with
  | file | block => exact absurd h (by simp [EntersAnywhere])
  -- the two rules that open a block must know where a line starts
  | indentedBlock | matchStmt => exact absurd trivial hopens
  | line indent =>
    simp [body, Script.line, Script.lineItem, choice, hexpr, EntersAnywhere]
  | decl indent => simp [body, Declaration.decl, choice, EntersAnywhere]
  | stmt indent => simp [body, Statement.stmt, choice, EntersAnywhere]
  | functionDecl indent =>
    have hargs := uses_anywhere Declaration.uses_functionArgs
    have htype := uses_anywhere (Declaration.uses_typeAfter (Reader.isSilent_consume "->").isHonest)
    simp [body, Declaration.functionDecl, hname, hargs, htype, EntersAnywhere]
  | classDecl indent =>
    have htype := uses_anywhere (Declaration.uses_typeAfter (Reader.isSilent_keyword "extends").isHonest)
    simp [body, Declaration.classDecl, hname, htype, EntersAnywhere]
  | ifStmt indent =>
    simp [body, Statement.ifStmt, Statement.elifBranch, Statement.elseBranch,
      Statement.seekContinuation, Option.forall, EntersAnywhere]
  | elifBranch indent => simp [body, Statement.elifBody, EntersAnywhere]
  | elseBranch indent => simp [body, Statement.elseBody, EntersAnywhere]
  | whileStmt indent => simp [body, Statement.whileStmt, EntersAnywhere]
  | forStmt indent => simp [body, Statement.forStmt, EntersAnywhere]
  | matchCase indent => simp [body, EntersAnywhere]
  | condition indent => simp [body, Statement.condition, hexpr, EntersAnywhere]
  | _ => exact uses_anywhere (uses_body trivial)

/-- Where a rule may be entered so that it tells the truth about the text. -/
def Rule.MayEnter (source : Text) : {α : Type} → Rule α → Cursor → Prop
  | _, .file, _ => False
  | _, .block _ _, c => c.StartsLine source
  | _, _, _ => True

theorem Rule.EntersAnywhere.mayEnter {α : Type} {rule : Rule α} (h : rule.EntersAnywhere)
    {source : Text} {c : Cursor} : rule.MayEnter source c := by
  cases rule <;> trivial

/-- The rules tell the truth about the text, from where they may be entered. -/
def Rule.TellTruth (source : Text) (room : Nat) : Prop :=
  ∀ {α : Type} (rule : Rule α) (c : Cursor), c.IsIn source → rule.MayEnter source c →
    Tells source room (call rule) c

section Rules

variable {source : Text} {room : Nat} {c : Cursor}

theorem Cursor.startsLine_lineBreak (hc : c.IsIn source) (hend : c.ahead.atLineEnd = true) :
    (c.advanceBy c.ahead.lineBreakLength).StartsLine source := by
  rw [Cursor.StartsLine, hc.take_advanceBy, Cursor.ahead_advanceBy]
  generalize c.ahead = t at hend
  rcases t.lineBreakLength_cases with hnone | ⟨l, rest, -, rfl, hlength⟩
  · rw [hnone, List.drop_zero]
    exact .inr hend
  · have htake : (l ++ CodeUnit.lineFeed :: rest).take (l.length + 1) = l ++ [CodeUnit.lineFeed] := by
      rw [List.append_cons]
      exact List.take_left' (by rw [List.length_append, List.length_singleton])
    rw [hlength, htake, ← List.append_assoc]
    exact .inl (Text.isLines_append_lineFeed _)

namespace Statement

/-- Behind the header of a block a line starts, or the line of the header ends. -/
theorem yields_blockOpening (header : Nat) (hc : c.IsIn source) :
    Yields room (blockOpening header) c fun _ c' => c'.StartsLine source := by
  refine (yields_reaches room _ c).bind fun _ c₁ h₁ => ?_
  refine (yields_reaches room _ c₁).bind fun _ c₂ h₂ => ?_
  refine yields_look_bind ?_
  split
  · next hended =>
    refine Yields.bind (P := fun _ c' => c'.StartsLine source) (yields_read fun _ n hread => ?_) ?_
    · cases hread
      exact Cursor.startsLine_lineBreak (hc.reaches (h₁.trans h₂)) hended
    · intro _ c₃ h₃
      -- the indentation is measured ahead, without taking anything
      refine yields_read fun width n hread => ?_
      obtain rfl : n = 0 := by
        simp only [Reader.bodyIndent] at hread
        split_ifs at hread
        exact (Reading.took.inj hread).2.symm
      exact h₃
  · exact yields_expected

theorem tells_blockOpening (header : Nat) (hc : c.IsIn source) :
    Tells source room (blockOpening header : Grammar Rule Nat) c := by
  have hhonest : ∀ {α : Type} {reader : Reader α} {c : Cursor}, reader.IsHonest →
      c.IsIn source → Tells source room (read reader : Grammar Rule α) c :=
    fun h hc => tells_read hc fun _ hread => h.isTrueOf hc hread
  refine (hhonest Reader.isSilent_skipSpaces.isHonest hc).bind_any hc fun _ c₁ hc₁ => ?_
  refine (hhonest Reader.isSilent_comment.isHonest hc₁).bind_any hc₁ fun _ c₂ hc₂ => ?_
  refine tells_look_bind ?_
  split
  · next hended =>
    -- behind the line break a line starts, which the reader of the indentation relies on
    refine Tells.bind hc₂ (hhonest Reader.isSilent_lineBreak.isHonest hc₂)
      (P := fun _ c' => c'.StartsLine source) (yields_read fun _ n hread => ?_) fun _ c₃ h₃ hc₃ => ?_
    · cases hread
      exact Cursor.startsLine_lineBreak hc₂ hended
    · refine tells_read hc₃ fun complaint hread => ?_
      have htrue := Reader.isTrueOf_bodyIndent h₃ hread
      rwa [hc₃.take_append, hc₃.length_take] at htrue
  · exact hhonest (Reader.isHonest_expected _) hc₂

end Statement

variable (hrules : Rule.TellTruth source room)

include hrules

theorem Rule.TellTruth.tells {α : Type} {g : Grammar Rule α} (hg : Uses Rule.anywhereMeans g)
    (hc : c.IsIn source) : Tells source room g c :=
  hg.tells id (fun _ hreader => hreader)
    (fun rule c hrule hc => hrules rule c hc (Rule.EntersAnywhere.mayEnter hrule)) hc

namespace Statement

/-- The width of the cases is measured where a line starts or ends. -/
theorem tells_matchStmt (indent : Nat) (hc : c.IsIn source) :
    Tells source room (matchStmt indent) c := by
  rw [matchStmt_eq]
  refine (hrules.tells (by simp) hc).bind_any hc fun _ c₁ hc₁ => ?_
  refine (hrules.tells (by simp) hc₁).bind_any hc₁ fun _ c₂ hc₂ => ?_
  refine (hrules.tells (Rule.uses_anywhere Expression.uses_expr) hc₂).bind_any hc₂ fun e c₃ hc₃ => ?_
  refine (hrules.tells (by simp) hc₃).bind_any hc₃ fun _ c₄ hc₄ => ?_
  refine (hrules.tells (by simp) hc₄).bind_any hc₄ fun _ c₅ hc₅ => ?_
  refine (tells_blockOpening indent hc₅).bind_any hc₅ fun width c₆ hc₆ => hrules.tells ?_ hc₆
  simp [caseTurn, seekLine, Rule.EntersAnywhere]

end Statement

namespace Script

/-- The block that a header governs starts where a line starts or ends. -/
theorem tells_indentedBlock (header : Nat) (hc : c.IsIn source) :
    Tells source room (indentedBlock header) c :=
  (Statement.tells_blockOpening header hc).bind hc (Statement.yields_blockOpening header hc)
    fun level c' hstarts hc' => hrules (.block level true) c' hc' hstarts

/-- The indentation of a line is measured at its start. -/
theorem tells_blockLine (level : Nat) (required : Bool) (hc : c.IsIn source)
    (hstarts : c.StartsLine source) : Tells source room (blockLine level required) c := by
  intro journal hjournal
  have hpassed := hc.reaches (reaches_passOver level c)
  have hline := hrules (.line level) _ (hpassed.advanceBy level) trivial
  refine leads_blockLine (fun _ => hjournal) (fun _ => ?_) (fun hcode hwidth scope => ?_)
    (fun _ _ _ => hline journal hjournal) fun _ _ _ => (hline.attempt journal hjournal)
  · exact hrules.tells (by simp [commentLine]) hpassed journal hjournal
  · refine List.forall_mem_cons.mpr ⟨Complaint.IsTrueOf.error ?_ hpassed scope, hjournal⟩
    -- whole lines have been passed over, unless nothing is left behind them
    have hlines : Text.IsLines (source.take (passOver level c).location.offset) := by
      rw [passOver, hc.take_advanceBy]
      refine (Text.isLines_of_dropped_of_atLineEnd
        (fun _ => isPassedOver_of_isBlankLine) hstarts).resolve_left fun hnil => ?_
      rw [passOver, Cursor.ahead_advanceBy, hnil] at hcode
      exact absurd hcode (by decide)
    rw [← List.append_nil (source.take _)] at hlines
    have hmismatch : ("of" : Text) = "of" ∧ (passOver level c).ahead.indentation ≠ level ∨
        ("of" : Text) = "greater than" ∧ (passOver level c).ahead.indentation ≤ level :=
      .inl ⟨rfl, hwidth⟩
    have htrue := Complaint.isTrueOf_indentation hlines hmismatch
    rwa [List.nil_append, hpassed.take_append, hpassed.length_take] at htrue

theorem tells_block (level : Nat) (required : Bool) (hc : c.IsIn source)
    (hstarts : c.StartsLine source) : Tells source room (block level required) c := by
  rw [block_eq]
  refine Tells.bind_any hc (Tells.loop (I := fun _ c' => c'.IsIn source ∧ c'.StartsLine source)
    ⟨hc, hstarts⟩ (fun lines c' hc' => ?_) fun lines c' hc' => ?_) fun lines _ _ => tells_pure _
  · refine (tells_blockLine hrules level _ hc'.1 hc'.2).bind_any hc'.1 fun found _ _ => ?_
    cases found <;> exact tells_pure _
  · refine ((yields_blockLine_atLineEnd level _ c').and (yields_reaches room _ c')).bind ?_
    rintro (_ | found) c'' ⟨hfound, hreaches⟩
    · obtain rfl : c'' = c' := hfound
      exact yields_pure hc'
    · exact yields_pure ⟨hc'.1.reaches hreaches, .inr hfound.1⟩

end Script

end Rules

theorem Rule.tells_body {source : Text} {room : Nat} (hrules : Rule.TellTruth source room)
    {α : Type} (rule : Rule α) {c : Cursor} (hc : c.IsIn source) (henter : rule.MayEnter source c) :
    Tells source room rule.body c := by
  -- most rules need not look at where they are entered; the others measure an indentation
  by_cases hanywhere : rule.EntersAnywhere
  · by_cases hopens : rule.OpensBlock
    · cases rule with
      | indentedBlock header => exact Script.tells_indentedBlock hrules header hc
      | matchStmt indent => exact Statement.tells_matchStmt hrules indent hc
      | _ => exact absurd hopens (by simp [OpensBlock])
    · exact hrules.tells (Rule.uses_body_anywhere hanywhere hopens) hc
  · cases rule with
    | file => exact henter.elim
    | block level required => exact Script.tells_block hrules level required hc henter
    | _ => exact absurd trivial hanywhere

/-- All rules tell the truth about the text, from where they may be entered. -/
theorem Rule.tellTruth (source : Text) (room : Nat) : Rule.TellTruth source room := by
  intro α rule c hc henter journal hjournal
  refine leads_call_of_bodies
    (S := fun rule c journal => c.IsIn source ∧ rule.MayEnter source c ∧ journal.IsTrueOf source)
    (T := fun _ _ _ _ _ journal' => journal'.IsTrueOf source) (E := Failure.Tells source)
    (fun rule scope c journal hS => ?_) (fun room ih α rule c journal hS => ?_) room rule c journal
    ⟨hc, henter, hjournal⟩
  · -- an exceeded limit claims nothing about the text
    have htrue := scope.isTrueOf_tooDeep c.location source
    exact ⟨List.forall_mem_cons.mpr ⟨htrue, hS.2.2⟩, _, rfl, htrue⟩
  · exact Rule.tells_body (fun rule c hc henter journal hjournal =>
      ih rule c journal ⟨hc, henter, hjournal⟩) rule hS.1 hS.2.1 journal hS.2.2

end GDScript
