import GDScript.Proofs.Limit
import GDScript.Proofs.Progress
import GDScript.Proofs.Report.Script
import Mathlib.Data.List.Perm.Subperm
import Mathlib.Data.List.ProdSigma

/-!
# Active rules are nested

The rules that are active when a run fails start one behind the other, and none of them is active
twice at one place (`Script.isNested_of_parse`). So no rule comes back to itself before anything has
been taken, and a text bounds how many rules can be active in it, whatever the depth limit is.

The reason is an order of the rules, `Rule.labels`: a rule that calls another one where it has been
entered itself stands before that one. Behind its place it may call any rule. `Grammar.EntersFrom`
says this of a run, from a rank on: the rules that it enters have that rank at least, until it has
taken something.
-/

namespace GDScript

open Grammar

/-! ### The order of the rules -/

/-- The labels of all rules; those that a rule starts with come behind its own one. -/
def Rule.labels : List Text :=
  List.map Text.ofString
  ["file", "indented_block", "block", "line", "decl", "stmt", "classname_decl", "extends_decl",
    "signal_decl", "enum_decl", "enum_variant", "class_decl", "function_decl", "function_arg",
    "const_decl", "var_decl", "if_stmt", "elif_stmt", "else_stmt", "while_stmt", "for_stmt",
    "match_stmt", "match_case_stmt", "condition", "return_stmt", "pass", "assign_stmt", "pair",
    "expr", "expr_un", "attr", "expr_index", "expr_parens", "value", "array", "object", "node_path",
    "string", "int", "function_call"]

/-- The place of a rule in the order. -/
def Rule.rank {α : Type} : Rule α → Nat
  -- a rule only enters those behind it, until something is taken
  | .file => 0
  | .indentedBlock _ => 1
  | .block _ _ => 2
  | .line _ => 3
  | .decl _ => 4
  | .stmt _ => 5
  | .classNameDecl => 6
  | .extendsDecl => 7
  | .signalDecl => 8
  | .enumDecl => 9
  | .enumVariant => 10
  | .classDecl _ => 11
  | .functionDecl _ => 12
  | .functionArg => 13
  | .constDecl => 14
  | .varDecl => 15
  | .ifStmt _ => 16
  | .elifBranch _ => 17
  | .elseBranch _ => 18
  | .whileStmt _ => 19
  | .forStmt _ => 20
  | .matchStmt _ => 21
  | .matchCase _ => 22
  | .condition _ => 23
  | .returnStmt => 24
  | .passStmt => 25
  | .assignStmt => 26
  | .pair => 27
  | .expr => 28
  | .unary _ => 29
  | .member _ => 30
  | .index => 31
  | .parens => 32
  | .value => 33
  | .array => 34
  | .object => 35
  | .nodePath => 36
  | .string => 37
  | .int => 38
  | .functionCall _ => 39

/-- The place of the rule that the frame is about in the order. -/
def Frame.rank (frame : Frame) : Nat := Rule.labels.idxOf frame.label

theorem Rule.nodup_labels : Rule.labels.Nodup := by decide +kernel

theorem Rule.getElem?_labels {α : Type} (rule : Rule α) :
    Rule.labels[rule.rank]? = some rule.label := by
  cases rule <;> rfl

theorem Rule.label_mem_labels {α : Type} (rule : Rule α) : rule.label ∈ Rule.labels :=
  List.mem_of_getElem? rule.getElem?_labels

theorem Rule.rank_frame {α : Type} (rule : Rule α) (l : Location) :
    Frame.rank ⟨rule.label, l⟩ = rule.rank := by
  obtain ⟨hlt, hlabel⟩ := List.getElem?_eq_some_iff.mp rule.getElem?_labels
  rw [Frame.rank, ← hlabel, Rule.nodup_labels.idxOf_getElem]

/-! ### Chains of frames -/

/-- The frame starts before the offset, or there as one of the rules before the rank. -/
def Frame.IsBefore (offset rank : Nat) (frame : Frame) : Prop :=
  frame.location.offset < offset ∨ frame.location.offset = offset ∧ frame.rank < rank

theorem Frame.IsBefore.mono {offset offset' rank rank' : Nat} {frame : Frame}
    (h : frame.IsBefore offset rank) (hoffset : offset ≤ offset') (hrank : rank ≤ rank') :
    frame.IsBefore offset' rank' := by
  unfold IsBefore at h ⊢
  omega

theorem Frame.IsBefore.offset_le {offset rank : Nat} {frame : Frame}
    (h : frame.IsBefore offset rank) : frame.location.offset ≤ offset := by
  unfold IsBefore at h
  omega

/-- The frames of active rules, innermost first: a whole script, and in it one behind the other. -/
structure Frame.IsChain (frames : List Frame) : Prop where
  pairwise : frames.Pairwise fun inner outer => outer.IsBefore inner.location.offset inner.rank
  label_mem : ∀ frame ∈ frames, frame.label ∈ Rule.labels
  getLast? : ∀ frame, frames.getLast? = some frame → frame = ⟨Rule.file.label, .first⟩

namespace Frame.IsChain

variable {frames : List Frame}

theorem nil : IsChain [] := ⟨.nil, by simp, by simp⟩

theorem file : IsChain [⟨Rule.file.label, .first⟩] :=
  ⟨List.pairwise_singleton _ _, by simp [Rule.label_mem_labels], by simp⟩

/-- Inside a chain a rule is entered that comes behind all of it. -/
theorem cons {α : Type} {rule : Rule α} {l : Location} (h : IsChain frames) (hne : frames ≠ [])
    (hbefore : ∀ frame ∈ frames, frame.IsBefore l.offset rule.rank) :
    IsChain (⟨rule.label, l⟩ :: frames) := by
  refine ⟨List.pairwise_cons.mpr ⟨fun outer houter => ?_, h.pairwise⟩, ?_, fun frame hlast => ?_⟩
  · rw [rule.rank_frame]
    exact hbefore outer houter
  · exact List.forall_mem_cons.mpr ⟨rule.label_mem_labels, h.label_mem⟩
  · rw [List.getLast?_cons_of_ne_nil hne] at hlast
    exact h.getLast? frame hlast

/-- No rule is active twice at one place. -/
theorem nodup (h : IsChain frames) :
    (frames.map fun frame => (frame.label, frame.location.offset)).Nodup := by
  refine List.pairwise_map.mpr (h.pairwise.imp fun {inner outer} hbefore heq => ?_)
  obtain ⟨hlabel, hoffset⟩ := Prod.mk.inj heq
  have hrank : inner.rank = outer.rank := congrArg (Rule.labels.idxOf ·) hlabel
  unfold IsBefore at hbefore
  omega

/-- There are no more frames than labels at all places up to the last one. -/
theorem length_le (h : IsChain frames) {n : Nat}
    (hle : ∀ frame ∈ frames, frame.location.offset ≤ n) :
    frames.length ≤ Rule.labels.length * (n + 1) := by
  have hsubset : (frames.map fun frame => (frame.label, frame.location.offset))
      ⊆ Rule.labels ×ˢ List.range (n + 1) := by
    intro pair hpair
    obtain ⟨frame, hframe, rfl⟩ := List.mem_map.mp hpair
    refine List.mem_product.mpr ⟨h.label_mem frame hframe, List.mem_range.mpr ?_⟩
    exact Nat.lt_succ_of_le (hle frame hframe)
  have hlength := (List.subperm_of_subset h.nodup hsubset).length_le
  rwa [List.length_map, List.length_product, List.length_range] at hlength

end Frame.IsChain

/-! ### Runs inside a rule -/

/-- The rules around the error make a chain up to it, and it lies in the text. -/
structure ParseError.EndsChain (source : Text) (e : ParseError) : Prop where
  chain : Frame.IsChain e.frames
  offset_le : ∀ frame ∈ e.frames, frame.location.offset ≤ e.location.offset
  inText : e.location.offset ≤ source.length

/-- What is written down ends chains, and an exceeded limit would have made one longer. -/
structure Journal.EndsChains (source : Text) (journal : Journal) : Prop where
  failures : ∀ e ∈ journal.failures, e.EndsChain source
  exceeded : ∀ e, .exceeded e ∈ journal → ∃ frame, Frame.IsChain (frame :: e.frames) ∧
    frame.location = e.location

namespace Journal.EndsChains

variable {source : Text} {journal : Journal} {event : Event}

theorem nil : EndsChains source [] := ⟨by simp, by simp⟩

/-- An event that is no exceeded limit adds at most a failure. -/
theorem cons (h : EndsChains source journal) (hevent : ∀ e, event ≠ .exceeded e)
    (hfailure : ∀ e, event.failure? = some e → e.EndsChain source) :
    EndsChains source (event :: journal) := by
  refine ⟨fun e he => ?_, fun e he => ?_⟩
  · obtain ⟨event', hmem, he'⟩ := List.mem_filterMap.mp he
    rcases List.mem_cons.mp hmem with rfl | hmem
    · exact hfailure e he'
    · exact h.failures e (List.mem_filterMap.mpr ⟨event', hmem, he'⟩)
  · exact h.exceeded e ((List.mem_cons.mp he).resolve_left fun heq => hevent e heq.symm)

end Journal.EndsChains

/-- The rules of a scope make a chain, all of it before the rules of the rank at a cursor. -/
structure Scope.IsBefore (rank : Nat) (start : Cursor) (s : Scope) : Prop where
  chain : Frame.IsChain s.frames
  frames : ∀ frame ∈ s.frames, frame.IsBefore start.location.offset rank

/-- An error about a place behind the cursor ends the chain of the rules around it. -/
theorem Scope.IsBefore.endsChain {source : Text} {rank : Nat} {start c : Cursor} {s : Scope}
    {e : ParseError} (hs : s.IsBefore rank start) (hreach : start.Reaches c) (hc : c.IsIn source)
    (hframes : e.frames = s.frames) (hplace : e.location = c.location) : e.EndsChain source := by
  refine ⟨hframes ▸ hs.chain, fun frame hframe => ?_, hplace ▸ hc.offset_le⟩
  have hbefore := hs.frames frame (hframes ▸ hframe)
  rw [hplace]
  exact Nat.le_trans hbefore.offset_le hreach.offset_le

/--
What holds from a cursor on inside a rule: the rules around it come before those of the rank, and
all that is written down ends a chain.
-/
def RuleInvariant.nested (source : Text) (rank : Nat) (start : Cursor) : RuleInvariant where
  scope _ s := s.frames ≠ [] ∧ s.IsBefore rank start
  cursor c := start.Reaches c ∧ c.IsIn source
  journal j := j.EndsChains source
  failure f j := j.EndsChains source ∧ ∀ e, f = .parse e → e.EndsChain source
  nest hs := ⟨hs.1, hs.2.chain, hs.2.frames⟩
  advance hc n := ⟨hc.1.trans (Cursor.reaches_advanceBy _ n), hc.2.advanceBy n⟩
  -- a complaint lies ahead of the cursor, and so behind the frames
  raise complaint hs hc hj := by
    have hreach := hc.1.trans (Cursor.reaches_advanceBy _ complaint.distance)
    have he := hs.2.endsChain (e := complaint.error _ _) hreach (hc.2.advanceBy _) rfl rfl
    exact ⟨hj.cons (by simp) fun d hd => Option.some.inj hd ▸ he,
      fun d hd => Failure.parse.inj hd ▸ he⟩
  note complaint hs hc hj := by
    have hreach := hc.1.trans (Cursor.reaches_advanceBy _ complaint.distance)
    have he := hs.2.endsChain (e := complaint.error _ _) hreach (hc.2.advanceBy _) rfl rfl
    exact hj.cons (by simp) fun d hd => Option.some.inj hd ▸ he
  -- a defect is no failure of the text
  abort defect hj := ⟨hj, fun e heq => by cases defect <;> cases heq⟩
  resume _ h := h.1
  raiseAgain _ h hj := ⟨hj, h.2⟩
  abandon _ hj := hj.cons (by simp) (by simp [Event.failure?])
  blame hbest hj := ⟨hj, fun e heq => Failure.parse.inj heq ▸
    hj.failures _ (Journal.mem_failures_of_furthest hbest)⟩
  watch _ hj := hj.cons (by simp) (by simp [Event.failure?])
  watch_failure _ h := ⟨h.1.cons (by simp) (by simp [Event.failure?]), h.2⟩

/-! ### Grammars -/

/-- Where less is ahead in a text, the place lies further on. -/
theorem Cursor.IsIn.offset_lt {source : Text} {c c' : Cursor} (h : c.IsIn source)
    (h' : c'.IsIn source) (hlt : c'.ahead.length < c.ahead.length) :
    c.location.offset < c'.location.offset := by
  rw [h.ahead_eq, h'.ahead_eq, List.length_drop, List.length_drop] at hlt
  omega

/-- Rules of the rank, and those behind them, may be called. -/
def Rule.meansFrom (rank : Nat) : Means Rule := ⟨fun _ => True, fun rule => rank ≤ rule.rank, True⟩

@[simp] theorem Rule.reads_meansFrom (rank : Nat) {β : Type} (reader : Reader β) :
    (meansFrom rank).reads reader := trivial

@[simp] theorem Rule.calls_meansFrom (rank : Nat) {β : Type} (rule : Rule β) :
    (meansFrom rank).calls rule ↔ rank ≤ rule.rank := Iff.rfl

@[simp] theorem Rule.retries_meansFrom (rank : Nat) : (meansFrom rank).retries := trivial

namespace Grammar

open GDScript.Parser (Keeps)

variable {R : Type → Type} [RuleSet R] {x : RuleInvariant} {source : Text} {room rank : Nat}
  {α β : Type}

/-- A grammar keeps what the rules that it calls keep. -/
theorem Uses.keeps {m : Means R} {g : Grammar R α} (h : Uses m g)
    (hcalls : ∀ {β : Type} (rule : R β), m.calls rule → Keeps x room (run room (call rule))) :
    Keeps x room (run room g) := by
  rw [run_eq_runWith]
  induction g with
  | pure v => exact Parser.keeps_pure v
  | bind g f ih ihf => exact (ih h.1).bind fun v => ihf v (h.2 v)
  | read reader => exact Parser.keeps_read reader
  | note complaint => exact Parser.keeps_note complaint
  | here | nesting => exact fun _ _ _ _ hc hj => ⟨hc, hj⟩
  | abort defect => exact fun _ _ _ _ _ hj => x.abort defect hj
  | call rule => exact run_eq_runWith room (call rule) ▸ hcalls rule h
  | within label g => exact h.elim
  | bracketed g ih => exact (ih h).bracketed
  | attempt g ih => exact (ih h.2).attempt
  | orElse g k ih ih' => exact (ih h.1).orElse (ih' h.2)
  | rewindIf forget g ih => exact (ih h).rewindIf forget
  | iterate turn y ih => exact Keeps.iterate (fun z => ih z (h z)) y
  | blame g ih => exact (ih h.2).blame
  | watch step g ih => exact (ih h.2).watch step

/-- Until it has taken something, a run of the grammar enters rules from the rank on only. -/
def EntersFrom (source : Text) (room rank : Nat) (g : Grammar Rule α) : Prop :=
  ∀ start, Keeps (.nested source rank start) room (run room g)

theorem EntersFrom.mono {g : Grammar Rule α} {rank' : Nat} (h : EntersFrom source room rank g)
    (hrank : rank' ≤ rank) : EntersFrom source room rank' g := by
  intro start s c j hs hc hj
  exact h start s c j ⟨hs.1, hs.2.chain, fun frame hframe =>
    (hs.2.frames frame hframe).mono (Nat.le_refl _) hrank⟩ hc hj

/-- What holds from a cursor on holds from every cursor before it. -/
theorem EntersFrom.meets_from {g : Grammar Rule α} {start c : Cursor} {s : Scope} {j : Journal}
    {rank' : Nat} (h : EntersFrom source room rank g) (hne : s.frames ≠ []) (hs : s.IsBefore rank c)
    (hreach : start.Reaches c) (hc : c.IsIn source) (hj : j.EndsChains source) :
    (run room g s c j).Meets (fun _ c' j' => (RuleInvariant.nested source rank' start).cursor c' ∧
      (RuleInvariant.nested source rank' start).journal j')
      (RuleInvariant.nested source rank' start).failure :=
  (h c s c j ⟨hne, hs⟩ ⟨.refl c, hc⟩ hj).mono
    (fun _ _ _ hend => ⟨⟨hreach.trans hend.1.1, hend.1.2⟩, hend.2⟩) fun _ _ hfailure => hfailure

/-- Where a step has taken something, any rule may be entered behind it. -/
theorem EntersFrom.bind_of {g : Grammar Rule α} {f : α → Grammar Rule β} {P : α → Prop}
    (hg : EntersFrom source room rank g)
    (hP : ∀ c, Yields room g c fun v c' => P v → c'.ahead.length < c.ahead.length)
    (htaken : ∀ v, P v → EntersFrom source room 0 (f v))
    (hother : ∀ v, ¬P v → EntersFrom source room rank (f v)) :
    EntersFrom source room rank (g >>= f) := by
  intro start s c j hs hc hj
  rw [run_bind, Parser.bind]
  have hmeets := hg start s c j hs hc hj
  cases hrun : run room g s c j with
  | failed failure j' =>
    rw [hrun] at hmeets
    exact hmeets
  | finished v c' j' =>
    rw [hrun] at hmeets
    obtain ⟨⟨hreach, hin⟩, hj'⟩ := hmeets
    -- what has taken a unit may enter any rule: all frames lie in front of the cursor now
    by_cases hv : P v
    · have hlt := hc.2.offset_lt hin (hP c s j v c' j' hrun hv)
      refine (htaken v hv).meets_from hs.1 ⟨hs.2.chain, fun frame hframe => .inl ?_⟩ hreach hin hj'
      calc frame.location.offset
          ≤ start.location.offset := (hs.2.frames frame hframe).offset_le
        _ ≤ c.location.offset := hc.1.offset_le
        _ < c'.location.offset := hlt
    · exact hother v hv start s c' j' hs ⟨hreach, hin⟩ hj'

theorem EntersFrom.bind {g : Grammar Rule α} {f : α → Grammar Rule β}
    (hg : EntersFrom source room rank g)
    (hf : ∀ v, EntersFrom source room rank (f v)) : EntersFrom source room rank (g >>= f) :=
  hg.bind_of (P := fun _ => False) (fun _ _ _ _ _ _ _ hfalse => hfalse.elim)
    (fun _ hfalse => hfalse.elim) fun v _ => hf v

theorem EntersFrom.bind_of_advances {g : Grammar Rule α} {f : α → Grammar Rule β}
    (hg : EntersFrom source room rank g) (h : Advances room g)
    (hf : ∀ v, EntersFrom source room 0 (f v)) : EntersFrom source room rank (g >>= f) :=
  hg.bind_of (P := fun _ => True) (fun c => (h c).mono fun _ _ hlt _ => hlt) (fun v _ => hf v)
    fun _ hfalse => absurd trivial hfalse

end Grammar

/-! ### The rules -/

/-- Subscripts and members are entered behind a value only, and rules behind them. -/
theorem Expression.uses_postfixed_meansFrom {k : Nat} (hk : k ≤ 30) :
    Uses (Rule.meansFrom k) postfixed := by
  have hle : ∀ n, 30 ≤ n → k ≤ n := fun n hn => Nat.le_trans hk hn
  simp [postfixed, primary, chain, subscripts, identOrCall, name, Rule.rank, hle]

namespace Rule

open Declaration Expression Statement

/-- Behind its place, the rule may come to itself again, or to a rule before it. -/
def ComesBack : {α : Type} → Rule α → Prop
  | _, .functionDecl _ | _, .classDecl _ | _, .ifStmt _ | _, .elifBranch _ | _, .elseBranch _
  | _, .whileStmt _ | _, .forStmt _ | _, .matchStmt _ | _, .condition _ | _, .unary _ | _, .parens
  | _, .index | _, .member _ | _, .array | _, .object | _, .functionCall _ => True
  | _, _ => False

/-- The other rules call none but those behind them, wherever they are. -/
theorem uses_body_meansFrom {α : Type} (rule : Rule α) (h : ¬rule.ComesBack) :
    Uses (meansFrom (rule.rank + 1)) rule.body := by
  -- the rules that come back to earlier ones take a unit first, and are dealt with apart
  cases rule with
  | functionDecl | classDecl | ifStmt | elifBranch | elseBranch | whileStmt | forStmt | matchStmt
  | condition | unary | parens | index | member | array | object | functionCall =>
    exact absurd trivial h
  | file => simp [body, rank, Script.file, Script.finished]
  | block level required =>
    have hline : ∀ required', Uses (meansFrom 3) (Script.blockLine level required') := by
      intro required'
      simp only [Script.blockLine, uses_optional, uses_bind, uses_read, uses_look, reads_meansFrom,
        true_and]
      intro _ kind
      cases kind <;> simp [Script.commentLine, rank]
    simp [body, rank, Script.block, hline, Option.forall]
  | indentedBlock header => simp [body, rank, Script.indentedBlock, blockOpening]
  | line indent => simp [body, rank, Script.line, Script.lineItem, choice, Expression.expr]
  | decl indent => simp [body, rank, Declaration.decl, choice]
  | stmt indent => simp [body, rank, Statement.stmt, choice]
  | varDecl =>
    simp [body, rank, Declaration.varDecl, binding, annotation, initializer, setget, accessors,
      name, typeHint, Expression.expr]
  | constDecl =>
    simp [body, rank, Declaration.constDecl, binding, annotation, initializer, name, typeHint,
      Expression.expr, Option.forall]
  | extendsDecl => simp [body, Declaration.extendsDecl, name, Option.forall]
  | classNameDecl => simp [body, Declaration.classNameDecl, name]
  | signalDecl =>
    simp [body, Declaration.signalDecl, signalParams, parenthesized, commaSeparated, name]
  | enumDecl => simp [body, rank, Declaration.enumDecl, variants, name]
  | enumVariant => simp [body, rank, Declaration.enumVariant, name, Expression.expr]
  | functionArg =>
    simp [body, rank, Declaration.functionArg, argAnnotation, initializer, name, typeHint,
      Expression.expr]
  | matchCase indent => simp [body, rank]
  | assignStmt =>
    simp [body, rank, Statement.assignStmt, uses_postfixed_meansFrom, Expression.expr,
      Option.forall]
  | returnStmt => simp [body, rank, Statement.returnStmt, Expression.expr]
  | passStmt => simp [body, Statement.passStmt]
  | expr =>
    simp [body, rank, logic, sum, term, binary, Expression.unary, uses_postfixed_meansFrom,
      Option.forall]
  | value => simp [body, rank, Expression.value, number, identOrCall, name, Option.forall]
  | int => simp [body]
  | string => simp [body, Expression.string]
  | nodePath => simp [body, Expression.nodePath]
  | pair => simp [body, rank, Expression.pair, Expression.expr]

/-- Where it is entered, every rule enters rules behind it only. -/
def AllEnterBehind (source : Text) (room : Nat) : Prop :=
  ∀ {α : Type} (rule : Rule α), EntersFrom source room rule.rank (call rule)

section

variable {source : Text} {room : Nat} {α β : Type} (hrules : AllEnterBehind source room)

include hrules

theorem AllEnterBehind.entersFrom {g : Grammar Rule α} {rank : Nat} (h : Uses (meansFrom rank) g) :
    EntersFrom source room rank g :=
  fun start => h.keeps fun rule hrank => (hrules rule).mono hrank start

/-- Behind a word or a sign any rule may be called. -/
theorem AllEnterBehind.entersFrom_read_bind {reader : Reader α} {f : α → Grammar Rule β}
    {rank : Nat} (h : reader.Advances fun _ => True) (hf : ∀ v, Uses (meansFrom 0) (f v)) :
    EntersFrom source room rank (read reader >>= f) :=
  (hrules.entersFrom (by simp)).bind_of_advances (advances_read h) fun v => hrules.entersFrom (hf v)

/-- Until it has taken something, a rule enters rules behind it only. -/
theorem entersFrom_body (rule : Rule α) : EntersFrom source room (rule.rank + 1) rule.body := by
  have hword : ∀ {β : Type} {word : Text} {f : Unit → Grammar Rule β} {k : Nat}, word ≠ [] →
      (∀ v, Uses (meansFrom 0) (f v)) → EntersFrom source room k (expectKeyword word >>= f) :=
    fun h hf => hrules.entersFrom_read_bind (Reader.advances_expectKeyword h) hf
  have hsign : ∀ {β : Type} {sign : Text} {f : Unit → Grammar Rule β} {k : Nat}, sign ≠ [] →
      (∀ v, Uses (meansFrom 0) (f v)) → EntersFrom source room k (expect sign >>= f) :=
    fun h hf => hrules.entersFrom_read_bind (Reader.advances_expect h) hf
  cases rule with
  | classDecl indent => exact hword (by decide) (by simp [name, typeHint, typeAfter])
  | functionDecl indent =>
    refine (hrules.entersFrom (by simp)).bind fun modifier => ?_
    refine (hrules.entersFrom (by simp)).bind fun _ => ?_
    exact hword (by decide) (by simp [name, typeHint, typeAfter, functionArgs, parenthesized,
      commaSeparated])
  | elifBranch | elseBranch | whileStmt | forStmt => exact hword (by decide) (by simp)
  | ifStmt indent =>
    exact hword (by decide) (by simp [Statement.elifBranch, Statement.elseBranch, Option.forall])
  | matchStmt indent => exact hword (by decide) (by simp [blockOpening, Expression.expr])
  | condition indent =>
    refine (hrules.entersFrom (by simp)).bind fun _ => ?_
    refine (hrules.entersFrom (by simp [Expression.expr, rank])).bind_of_advances
      (Rule.advances room .expr fun _ => trivial) fun test => hrules.entersFrom (by simp)
  | unary op =>
    refine EntersFrom.bind ?_ fun operand => hrules.entersFrom (by simp)
    -- when the rule is entered again, another operator has been taken
    refine (hrules.entersFrom (by simp)).bind_of (P := (· ≠ none))
      (yields_read_lt (Reader.advances_operator (by decide))) (fun found _ => ?_)
      fun found hnone => ?_
    · cases found <;> exact hrules.entersFrom (by simp [uses_postfixed_meansFrom])
    · obtain rfl : found = none := by simpa using hnone
      exact hrules.entersFrom (uses_postfixed_meansFrom (Nat.le_refl 30))
  | member name =>
    refine (hrules.entersFrom (by simp [subscripts, rank])).bind fun subscripted =>
      (hrules.entersFrom (by simp)).bind fun dotted => ?_
    split
    · refine EntersFrom.bind_of_advances ?_ advances_identOrCall fun found =>
        hrules.entersFrom (by simp)
      exact hrules.entersFrom (by simp [identOrCall, Expression.name, rank])
    · exact hrules.entersFrom (by simp)
  | parens | index => exact hsign (by decide) (by simp [Expression.expr])
  | array => exact hsign (by decide) (by simp [itemsUntil, Expression.expr])
  | object => exact hsign (by decide) (by simp [itemsUntil])
  | functionCall name =>
    refine EntersFrom.bind (hsign (by decide) ?_) fun args => hrules.entersFrom (by simp)
    simp [commaSeparated, Expression.expr]
  | _ => exact hrules.entersFrom (uses_body_meansFrom _ id)

end

/-- A rule of the rank that is entered behind the start of a chain makes it longer. -/
theorem isChain_cons {α : Type} {rule : Rule α} {start c : Cursor} {s : Scope}
    (hne : s.frames ≠ []) (hs : s.IsBefore rule.rank start) (hreach : start.Reaches c) :
    Frame.IsChain (⟨rule.label, c.location⟩ :: s.frames) :=
  hs.chain.cons hne fun frame hframe =>
    (hs.frames frame hframe).mono hreach.offset_le (Nat.le_refl _)

theorem allEnterBehind (source : Text) (room : Nat) : AllEnterBehind source room := by
  induction room with
  | zero =>
    -- there is no room for the rule, but it would have made the chain longer
    intro α rule start s c j hs hc hj
    have he := hs.2.endsChain (e := s.tooDeep c.location) hc.1 hc.2 rfl rfl
    refine ⟨⟨List.forall_mem_cons.mpr ⟨he, hj.failures⟩, fun d hd => ?_⟩,
      fun d hd => Failure.parse.inj hd ▸ he⟩
    rcases List.mem_cons.mp hd with heq | hmem
    · cases heq
      exact ⟨_, isChain_cons hs.1 hs.2 hc.1, rfl⟩
    · exact hj.exceeded d hmem
  | succ room ih =>
    intro α rule start s c j hs hc hj
    rw [run_call]
    refine (entersFrom_body ih rule).meets_from (List.cons_ne_nil _ _)
      ⟨isChain_cons hs.1 hs.2 hc.1, ?_⟩ hc.1 hc.2 hj
    refine List.forall_mem_cons.mpr ⟨.inr ⟨rfl, ?_⟩, fun frame hframe => ?_⟩
    · exact (rule.rank_frame c.location).trans_lt (Nat.lt_succ_self _)
    · exact (hs.2.frames frame hframe).mono hc.1.offset_le (Nat.le_succ _)

end Rule

/-! ### Scripts -/

/--
The rules around an error in a text, under a depth limit: a whole script, and in it one behind the
other, none twice at one place.
-/
structure ParseError.IsNested (source : Text) (limit : Int) (e : ParseError) : Prop where
  /-- The outermost rule is that of a whole script. -/
  outermost : ∀ frame, e.frames.getLast? = some frame → frame = ⟨"file", ⟨1, 1, 0⟩⟩
  /-- No rule starts before one that is around it. -/
  ordered : e.frames.Pairwise fun inner outer => outer.location.offset ≤ inner.location.offset
  /-- No rule starts behind the error. -/
  offset_le : ∀ frame ∈ e.frames, frame.location.offset ≤ e.location.offset
  inText : e.location.offset ≤ source.length
  /-- No rule is active twice at one place. -/
  nodup : (e.frames.map fun frame => (frame.label, frame.location.offset)).Nodup
  /-- The text bounds the number of active rules. -/
  length_le : e.frames.length ≤ Rule.labels.length * (source.length + 1)
  /-- So does the limit. -/
  length_le_limit : (e.frames.length : Int) ≤ max limit 0
  /-- Where the limit is exceeded, as many rules are active as it allows. -/
  length_eq_limit : e.code = .nestingTooDeep → (e.frames.length : Int) = max limit 0

theorem ParseError.EndsChain.isNested {source : Text} {limit : Int} {e : ParseError}
    (h : e.EndsChain source) (hfits : e.FitsLimit limit.toNat) (htrue : e.IsTrueOf source) :
    e.IsNested source limit where
  outermost := h.chain.getLast?
  ordered := h.chain.pairwise.imp fun hbefore => hbefore.offset_le
  offset_le := h.offset_le
  inText := h.inText
  nodup := h.chain.nodup
  -- the frames differ in their place or in their label, and there are forty labels
  length_le := h.chain.length_le fun frame hframe =>
    Nat.le_trans (h.offset_le frame hframe) h.inText
  length_le_limit := by
    have hlength := hfits.length_le
    omega
  length_eq_limit hcode := by
    have hlength := hfits.length_eq (htrue.recoverable_eq hcode)
    omega

namespace Script

/-- Under every limit, all that a run over a text writes down ends a chain; so does its failure. -/
theorem meets_endsChains (source : Text) (limit : Int) :
    (start limit 0 (Cursor.ofText source) (call Rule.file)).Meets
      (fun _ _ journal => journal.EndsChains source) fun failure journal =>
        journal.EndsChains source ∧ ∀ e, failure = .parse e → e.EndsChain source := by
  rw [start]
  -- without room the first rule fails at once, in no frame
  cases limit.toNat with
  | zero =>
    have he : (Scope.tooDeep ⟨[], 0, limit⟩ (Cursor.ofText source).location).EndsChain source :=
      ⟨.nil, by simp [Scope.tooDeep], Nat.zero_le _⟩
    refine ⟨⟨List.forall_mem_singleton.mpr he, fun d hd => ?_⟩,
      fun d hd => Failure.parse.inj hd ▸ he⟩
    cases List.mem_singleton.mp hd
    exact ⟨⟨Rule.file.label, .first⟩, .file, rfl⟩
  | succ room =>
    rw [run_call]
    refine (Rule.entersFrom_body (Rule.allEnterBehind source room) .file (Cursor.ofText source) _
      (Cursor.ofText source) [] ⟨List.cons_ne_nil _ _, .file, ?_⟩
      ⟨.refl _, Cursor.isIn_ofText source⟩ .nil).mono (fun _ _ _ hend => hend.2)
      fun _ _ hfailure => hfailure
    intro frame hframe
    cases List.mem_singleton.mp hframe
    exact .inr ⟨rfl, (Rule.rank_frame .file _).trans_lt (Nat.lt_succ_self _)⟩

theorem meets_fitsLimit (source : Text) (limit : Int) :
    (start limit 0 (Cursor.ofText source) (call Rule.file)).Meets
      (fun _ _ journal => ∀ e ∈ journal.failures, e.FitsLimit limit.toNat) fun failure journal =>
        (∀ e ∈ journal.failures, e.FitsLimit limit.toNat) ∧
          ∀ e, failure = .parse e → e.FitsLimit limit.toNat :=
  (keeps (.room limit.toNat) limit.toNat (call Rule.file) ⟨[], 0, limit⟩ (Cursor.ofText source) []
    (Nat.zero_add _) trivial fun _ h => absurd h List.not_mem_nil).mono
      (fun _ _ _ hend => hend.2) fun _ _ hfailure => hfailure

/-- Under every limit, the rules around all that a run over a text writes down are nested. -/
theorem meets_isNested (source : Text) (limit : Int) :
    (start limit 0 (Cursor.ofText source) (call Rule.file)).Meets
      (fun _ _ journal => ∀ e ∈ journal.failures, e.IsNested source limit) fun failure journal =>
        (∀ e ∈ journal.failures, e.IsNested source limit) ∧
          ∀ e, failure = .parse e → e.IsNested source limit := by
  have htells : (start limit 0 (Cursor.ofText source) (call Rule.file)).Meets _ _ :=
    leads_file_tells limit.toNat source _
  -- the chain, the room for frames and the truth of a failure, each shown of the same run
  refine (((meets_endsChains source limit).and (meets_fitsLimit source limit)).and htells).mono
    (fun _ _ journal h e he => ?_) fun failure journal h => ⟨fun e he => ?_, fun e he => ?_⟩
  · obtain ⟨⟨hchain, hfits⟩, htrue⟩ := h
    exact (hchain.failures e he).isNested (hfits e he) (htrue e he)
  · obtain ⟨⟨hchain, hfits⟩, htrue⟩ := h
    exact (hchain.1.failures e he).isNested (hfits.1 e he) (htrue.1 e he)
  · obtain ⟨⟨hchain, hfits⟩, -, d, rfl, htrue⟩ := h
    obtain rfl := Failure.parse.inj he
    exact (hchain.2 d rfl).isNested (hfits.2 d rfl) htrue

/-- A limit that bounds the number of active rules in a text is not exceeded in it. -/
theorem not_exceeded_of_le {source : Text} {limit : Int}
    (h : (Rule.labels.length * (source.length + 1) : Nat) ≤ limit) (e : ParseError) :
    .exceeded e ∉ (start limit 0 (Cursor.ofText source) (call Rule.file)).journal := by
  intro he
  obtain ⟨-, hdeep⟩ := exists_of_exceeded he
  have hchains := ((meets_endsChains source limit).mono (fun _ _ _ h => h) fun _ _ h => h.1).journal
  -- the rule for which there was no room would have been one rule too many for the text
  obtain ⟨frame, hchain, hplace⟩ := hchains.exceeded e he
  have hends := hchains.failures e (List.mem_filterMap.mpr ⟨_, he, rfl⟩)
  have hlength : e.frames.length + 1 ≤ Rule.labels.length * (source.length + 1) :=
    hchain.length_le (List.forall_mem_cons.mpr ⟨hplace ▸ hends.inText, fun frame hframe =>
      Nat.le_trans (hends.offset_le frame hframe) hends.inText⟩)
  rw [hdeep.length_frames] at hlength
  omega

/--
The rules around what is reported for a script are nested, at every depth, and so are those around
everything that a run over it writes down, under every limit. A text bounds how many rules can be
active in it: a limit of that size is never exceeded.
-/
theorem isNested_of_parse (source : Text) (depth : Option Int) :
    (∀ e, parse source depth = .error (.parse e) →
      e.IsNested source (min (depth.getD 512) 1024)) ∧
    ∀ limit : Int,
      (∀ e ∈ (start limit 0 (Cursor.ofText source) (call Rule.file)).journal.failures,
        e.IsNested source limit) ∧
      ((Rule.labels.length * (source.length + 1) : Nat) ≤ limit →
        ∀ e, .exceeded e ∉ (start limit 0 (Cursor.ofText source) (call Rule.file)).journal) := by
  refine ⟨fun e h => ?_, fun limit => ⟨fun e he => ?_, fun hle e => not_exceeded_of_le hle e⟩⟩
  · obtain ⟨journal, hrun⟩ := exists_run_of_parse h
    have hmeets := meets_isNested source (depthLimit depth)
    rw [run] at hrun
    rw [hrun] at hmeets
    exact hmeets.2 e rfl
  · exact ((meets_isNested source limit).mono (fun _ _ _ h => h) fun _ _ h => h.1).journal e he

/-- Two parentheses make one rule too many for seven; what stands in one is reported inside them. -/
theorem isNested_of_parse_parens :
    (∃ e, parse "((a))" (some 7) = .error (.parse e) ∧ e.code = .nestingTooDeep ∧
      e.frames.length = 7 ∧ e.IsNested "((a))" 7) ∧
    (∃ e, parse "f([a, (b c)])" none = .error (.parse e) ∧ e.location.offset = 9 ∧
      e.IsNested "f([a, (b c)])" 512) ∧
    ∀ e, .exceeded e ∉ (start 240 0 (Cursor.ofText "((a))") (call Rule.file)).journal := by
  obtain ⟨e, hdeep, hcode, hlength⟩ : ∃ e : ParseError, parse "((a))" (some 7) = .error (.parse e) ∧
      e.code = .nestingTooDeep ∧ e.frames.length = 7 := by decide +kernel
  obtain ⟨d, hfailed, hoffset⟩ : ∃ d : ParseError, parse "f([a, (b c)])" none = .error (.parse d) ∧
      d.location.offset = 9 := by decide +kernel
  exact ⟨⟨e, hdeep, hcode, hlength, (isNested_of_parse "((a))" (some 7)).1 e hdeep⟩,
    ⟨d, hfailed, hoffset, (isNested_of_parse "f([a, (b c)])" none).1 d hfailed⟩,
    ((isNested_of_parse "((a))" none).2 240).2 (by decide)⟩

end Script

end GDScript
