import GDScript.Proofs.Nested
import GDScript.Proofs.Pairing.SameLine
import GDScript.Proofs.Report.Data
import GDScript.Proofs.Split

/-!
# Reports keep to their lines

Whatever a script holds, what is reported for it stays on the lines that reports are made of: the
message and the trace of an error are one line each, and below the message there is one line for each
active rule (`Script.report_eq_of_parse`). A message quotes single units, words and digits of the
script, but a line end is called by its name. So no complaint of a reader holds a line end
(`Reader.IsOneLine`), and runs raise and note nothing else than such complaints
(`Grammar.KeepsLines`).
-/

namespace GDScript

open Grammar

/-! ### Texts on one line -/

namespace Text

/-- The text holds no line end. -/
def IsOneLine (t : Text) : Prop := ∀ u ∈ t, u.isLineEnd = false

instance (t : Text) : Decidable t.IsOneLine :=
  inferInstanceAs (Decidable (∀ u ∈ t, u.isLineEnd = false))

variable {s t : Text} {parts : List Text}

theorem IsOneLine.nil : IsOneLine [] := fun _ hu => absurd hu List.not_mem_nil

theorem isOneLine_append : (s ++ t).IsOneLine ↔ s.IsOneLine ∧ t.IsOneLine :=
  List.forall_mem_append

theorem IsOneLine.append (hs : s.IsOneLine) (ht : t.IsOneLine) : (s ++ t).IsOneLine :=
  isOneLine_append.mpr ⟨hs, ht⟩

theorem IsOneLine.ne_lineFeed (h : t.IsOneLine) : ∀ u ∈ t, u ≠ CodeUnit.lineFeed :=
  fun u hu => ne_lineFeed_of_isLineEnd (h u hu)

/-- Joining puts nothing in but the separator. -/
theorem IsOneLine.join (hs : s.IsOneLine) (h : ∀ part ∈ parts, part.IsOneLine) :
    (join s parts).IsOneLine := by
  induction parts with
  | nil => exact .nil
  | cons part parts ih =>
    obtain ⟨hpart, hparts⟩ := List.forall_mem_cons.mp h
    cases parts with
    | nil =>
      rw [Text.join, List.intercalate_singleton]
      exact hpart
    | cons next parts =>
      rw [Text.join, List.intercalate_cons_cons]
      exact (hpart.append hs).append (ih hparts)

/-- A run of a class that no line end belongs to. -/
theorem IsRun.isOneLine {p : CodeUnit → Bool} (h : t.IsRun p)
    (hp : ∀ u ∈ CodeUnit.lineEnds, p u = false) : t.IsOneLine :=
  fun u hu => CodeUnit.isLineEnd_eq_false_of_class hp (h.2 u hu)

theorem isOneLine_ofNat (n : Nat) : (ofNat n).IsOneLine :=
  (isRun_ofNat n).isOneLine (by decide)

theorem isOneLine_ofInt (n : Int) : (ofInt n).IsOneLine := by
  cases n with
  | ofNat n => exact isOneLine_ofNat n
  | negSucc n => exact List.forall_mem_cons.mpr ⟨by decide, isOneLine_ofNat (n + 1)⟩

/-- A line end is called by its name, any other unit by itself. -/
theorem isOneLine_describe (next : Option CodeUnit) : (describe next).IsOneLine := by
  cases next with
  | none => decide
  | some u =>
    rw [describe]
    split
    · decide
    · next hu =>
      split
      · decide
      · have hunit : u.isLineEnd = false := Bool.eq_false_iff.mpr hu
        have hquote : CodeUnit.singleQuote.isLineEnd = false := by decide
        simp only [IsOneLine, List.forall_mem_cons, hunit, hquote, List.not_mem_nil, true_and]
        exact fun _ h => h.elim

end Text

theorem Location.isOneLine_format (l : Location) : l.format.IsOneLine :=
  ((Text.isOneLine_ofInt l.line).append (by decide)).append (Text.isOneLine_ofInt l.column)

/-! ### Messages -/

/-- A template that is on one line without its arguments, filled with such arguments. -/
theorem Template.isOneLine_fill {arguments : Arguments} {template : Template}
    (htemplate : (template.fill []).IsOneLine)
    (harguments : ∀ argument ∈ arguments, argument.2.format.IsOneLine) :
    (template.fill arguments).IsOneLine := by
  -- an argument that is not given is filled in as nothing
  have hargument : ∀ name, (arguments.format name).IsOneLine := by
    intro name
    unfold Arguments.format
    split
    · next value hvalue =>
      obtain ⟨before, after, rfl, -⟩ := List.lookup_eq_some_iff.mp hvalue
      exact harguments (name, value) (List.mem_append_cons_self)
    · exact .nil
  induction template with
  | nil => exact .nil
  | cons segment rest ih =>
    cases segment with
    | literal text =>
      obtain ⟨htext, hrest⟩ := Text.isOneLine_append.mp htemplate
      exact Text.isOneLine_append.mpr ⟨htext, ih hrest⟩
    | argument name => exact Text.isOneLine_append.mpr ⟨hargument name, ih htemplate⟩

/-- The messages of all codes are on one line, if their arguments are. -/
theorem Code.isOneLine_message (code : Code) {arguments : Arguments}
    (h : ∀ argument ∈ arguments, argument.2.format.IsOneLine) :
    (code.message arguments).IsOneLine := by
  have htemplate : (code.message []).IsOneLine := by
    cases code <;> decide
  exact Template.isOneLine_fill htemplate h

namespace Complaint

theorem isOneLine_message {c : Complaint}
    (h : ∀ argument ∈ c.arguments, argument.2.format.IsOneLine) (hhint : c.hint.IsOneLine) :
    c.message.IsOneLine := by
  refine (c.code.isOneLine_message h).append ?_
  split
  · exact .nil
  · exact Text.IsOneLine.append (by decide) hhint

theorem isOneLine_unexpected {what : Text} (h : what.IsOneLine) (next : Option CodeUnit) :
    (unexpected what next).message.IsOneLine := by
  refine isOneLine_message ?_ ?_
  · intro argument hargument
    rcases List.mem_cons.mp hargument with rfl | hargument
    · exact h
    · rw [List.mem_singleton.mp hargument]
      exact Text.isOneLine_describe next
  · unfold unexpected closerHint
    dsimp only
    split_ifs <;> decide

theorem isOneLine_indentation {relation : Text} (h : relation.IsOneLine) (width : Nat) (line : Text)
    (distance : Nat) : (indentation relation width line distance).message.IsOneLine := by
  refine isOneLine_message ?_ ?_
  · intro argument hargument
    rcases List.mem_cons.mp hargument with rfl | hargument
    · exact h
    · rcases List.mem_cons.mp hargument with rfl | hargument
      · exact Text.isOneLine_ofInt width
      · rw [List.mem_singleton.mp hargument]
        exact Text.isOneLine_ofInt line.indentation
  · unfold indentation tabHint
    dsimp only
    split_ifs <;> decide

end Complaint

/-! ### Readers -/

namespace Reader

variable {α : Type}

/-- Whatever is ahead, the complaints of the reader are on one line. -/
def IsOneLine (reader : Reader α) : Prop :=
  ∀ t complaint, reader t = .fault complaint → complaint.message.IsOneLine

@[simp] theorem IsSilent.isOneLine {reader : Reader α} (h : reader.IsSilent) : reader.IsOneLine :=
  fun t complaint hread => absurd hread (h t complaint)

@[simp] theorem isOneLine_expected {what : Text} (h : what.IsOneLine) :
    (expected what : Reader α).IsOneLine := by
  intro t complaint hread
  cases hread
  exact Complaint.isOneLine_unexpected h _

@[simp] theorem isOneLine_expect {text : Text} (h : text.IsOneLine) :
    (expect text).IsOneLine := by
  intro t complaint hread
  unfold expect at hread
  split at hread
  · cases hread
  · cases hread
    exact Complaint.isOneLine_unexpected ((Text.IsOneLine.append (by decide) h).append (by decide)) _

@[simp] theorem isOneLine_expectKeyword {word : Text} (h : word.IsOneLine) :
    (expectKeyword word).IsOneLine := by
  intro t complaint hread
  unfold expectKeyword at hread
  split at hread
  · cases hread
  · cases hread
    exact Complaint.isOneLine_unexpected ((Text.IsOneLine.append (by decide) h).append (by decide)) _

/-- A number that is out of range is quoted with its digits. -/
@[simp] theorem isOneLine_int : int.IsOneLine := by
  intro t complaint hread
  unfold int at hread
  split at hread
  · cases hread
  · next literal hliteral =>
    split at hread
    · cases hread
    · cases hread
      have hraw : literal.raw.IsOneLine := by
        obtain ⟨digits, rest, -, ⟨hrun, -, rfl⟩ | ⟨hrun, -, rfl⟩⟩ :=
          Text.exists_of_intLiteral? hliteral
        · exact hrun.isOneLine (by decide)
        · exact Text.IsOneLine.append (by decide) (hrun.isOneLine (by decide))
      exact Complaint.isOneLine_message (List.forall_mem_singleton.mpr hraw) .nil

/-- A unit that cannot be escaped is quoted, unless it is a line end. -/
@[simp] theorem isOneLine_string : string.IsOneLine := by
  -- of an escaped line end the message gives the name, so it stays on one line
  have hinvalid : ∀ distance escaped, (invalidEscape distance escaped).message.IsOneLine := by
    intro distance escaped
    refine Complaint.isOneLine_message (List.forall_mem_singleton.mpr ?_) .nil
    show (if escaped.isLineEnd then _ else _ : Text).IsOneLine
    split
    · exact Text.isOneLine_describe _
    · next hescaped => exact List.forall_mem_singleton.mpr (Bool.eq_false_iff.mpr hescaped)
  intro t complaint hread
  cases t with
  | nil => cases hread
  | cons u t =>
    rw [string] at hread
    split at hread
    · cases hread
    · split at hread
      · cases hread
      · cases hread
        decide
      · cases hread
        exact hinvalid _ _

@[simp] theorem isOneLine_nodePath : nodePath.IsOneLine := by
  intro t complaint hread
  cases t with
  | nil => cases hread
  | cons u t =>
    rw [nodePath] at hread
    split at hread
    · split at hread
      · next complaint' hstring =>
        cases hread
        exact isOneLine_string t complaint' hstring
      · cases hread
      · split at hread <;> cases hread
    · cases hread

@[simp] theorem isOneLine_bodyIndent (header : Nat) : (bodyIndent header).IsOneLine := by
  intro t complaint hread
  unfold bodyIndent at hread
  dsimp only at hread
  split at hread
  · cases hread
    exact Complaint.isOneLine_unexpected (by decide) none
  · split at hread
    · cases hread
    · cases hread
      exact Complaint.isOneLine_indentation (by decide) _ _ _

end Reader

/-! ### Runs -/

/-- The messages of all failures that are written down are on one line. -/
def Journal.IsOneLine (journal : Journal) : Prop := ∀ e ∈ journal.failures, e.message.IsOneLine

/-- The message of the failure, and of every one before it, is on one line. -/
def Failure.IsOneLine (failure : Failure) (journal : Journal) : Prop :=
  journal.IsOneLine ∧ ∃ e, failure = .parse e ∧ e.message.IsOneLine

theorem Scope.isOneLine_tooDeep (scope : Scope) (location : Location) :
    (scope.tooDeep location).message.IsOneLine :=
  Code.isOneLine_message _ (List.forall_mem_singleton.mpr (Text.isOneLine_ofInt scope.limit))

theorem Journal.IsOneLine.tooDeep {journal : Journal} (h : journal.IsOneLine) (scope : Scope)
    (location : Location) : Failure.IsOneLine (.parse (scope.tooDeep location))
      (.exceeded (scope.tooDeep location) :: journal) :=
  ⟨List.forall_mem_cons.mpr ⟨scope.isOneLine_tooDeep location, h⟩, _, rfl,
    scope.isOneLine_tooDeep location⟩

namespace Grammar

variable {R : Type → Type} [RuleSet R] {α β σ : Type} {room : Nat}

/-- Runs of the grammar only write down and raise messages on one line. -/
def KeepsLines (room : Nat) (g : Grammar R α) : Prop :=
  ∀ c journal, journal.IsOneLine →
    Leads room g c journal (fun _ _ journal' => journal'.IsOneLine) Failure.IsOneLine

theorem KeepsLines.bind {g : Grammar R α} {f : α → Grammar R β} (hg : KeepsLines room g)
    (hf : ∀ v, KeepsLines room (f v)) : KeepsLines room (g >>= f) :=
  fun c journal hjournal => (hg c journal hjournal).bind fun v c' journal' => hf v c' journal'

theorem keepsLines_read {reader : Reader α} (h : reader.IsOneLine) :
    KeepsLines room (read reader : Grammar R α) := by
  refine fun c journal hjournal => leads_read (fun _ _ _ => hjournal) fun complaint _ hread => ?_
  have hmessage := h c.ahead complaint hread
  exact ⟨List.forall_mem_cons.mpr ⟨hmessage, hjournal⟩, _, rfl, hmessage⟩

theorem KeepsLines.attempt {g : Grammar R α} (h : KeepsLines room g) :
    KeepsLines room (attempt g) :=
  fun c journal hjournal => (h c journal hjournal).attempt (fun _ _ _ hfailure => hfailure.1)
    fun _ _ _ hfailure => hfailure

theorem KeepsLines.orElse {g h : Grammar R α} (hg : KeepsLines room g) (hh : KeepsLines room h) :
    KeepsLines room (orElse g h) :=
  fun c journal hjournal => (hg c journal hjournal).orElse fun _ journal' _ hfirst =>
    (hh c journal' hfirst.1).mono (fun _ _ _ hjournal'' => hjournal'')
      fun _ _ hsecond => ⟨hsecond, fun _ => ⟨hsecond.1, hfirst.2⟩⟩

theorem KeepsLines.iterate {turn : σ → Grammar R (Next σ)} (h : ∀ x, KeepsLines room (turn x))
    (x : σ) : KeepsLines room (iterate turn x) := by
  intro c journal hjournal
  refine Leads.loop (I := fun _ _ journal' => journal'.IsOneLine) hjournal (fun _ _ _ hy => hy)
    fun y c' journal' hy => (h y c' journal' hy).mono (fun next _ _ hnext => ?_) fun _ _ hE => hE
  cases next <;> exact hnext

/-- A grammar keeps to lines when the readers that it uses do, and the rules. -/
theorem Uses.keepsLines {m : Means R} {g : Grammar R α} (h : Uses m g) (hretries : ¬m.retries)
    (hreads : ∀ {β : Type} (reader : Reader β), m.reads reader → reader.IsOneLine)
    (hcalls : ∀ {β : Type} (rule : R β), m.calls rule → KeepsLines room (call rule)) :
    KeepsLines room g := by
  induction g with
  | pure v => exact fun c journal hjournal => leads_pure hjournal
  | bind g f ih ihf => exact (ih h.1).bind fun v => ihf v (h.2 v)
  | read reader => exact keepsLines_read (hreads reader h)
  | here => exact fun c journal hjournal => leads_here hjournal
  | nesting => exact fun c journal hjournal => leads_nesting fun _ => hjournal
  | call rule => exact hcalls rule h
  | bracketed g ih => exact fun c journal hjournal => (ih h c journal hjournal).bracketed
  | orElse g k ih ih' => exact (ih h.1).orElse (ih' h.2)
  | rewindIf forget g ih => exact fun c journal hjournal => (ih h c journal hjournal).rewindIf
  | iterate turn x ih => exact KeepsLines.iterate (fun y => ih y (h y)) x
  -- without retries nothing is noted, tried or blamed
  | note | abort => exact absurd h hretries
  | attempt | blame | watch => exact absurd h.1 hretries
  | within => exact h.elim

end Grammar

/-! ### The rules of a script -/

namespace Rule

open Declaration Expression Statement

/-- Readers that keep to lines, and any rules. -/
def lineMeans : Means Rule := ⟨fun reader => reader.IsOneLine, fun _ => True, False⟩

@[simp] theorem reads_lineMeans {β : Type} (reader : Reader β) :
    lineMeans.reads reader = reader.IsOneLine := rfl

@[simp] theorem calls_lineMeans {β : Type} (rule : Rule β) : lineMeans.calls rule = True := rfl

/-- A block notes what it cannot take, and a file gives the blame. -/
def Notes : {α : Type} → Rule α → Prop
  | _, .file | _, .block _ _ => True
  | _, _ => False

theorem uses_postfixed_lineMeans : Uses lineMeans postfixed := by
  simp +decide [postfixed, primary, chain, subscripts, identOrCall, name]

/-- All other rules only read, and call rules. -/
theorem uses_body_lineMeans {α : Type} (rule : Rule α) (h : ¬rule.Notes) :
    Uses lineMeans rule.body := by
  have hname : Uses lineMeans name := by simp +decide [name]
  have htype : Uses lineMeans typeHint := by simp +decide [typeHint]
  have hexpr : Uses lineMeans Expression.expr := trivial
  have hpostfixed := uses_postfixed_lineMeans
  have hinitializer : Uses lineMeans initializer := by simp +decide [initializer, hexpr]
  have hbinding : Uses lineMeans binding := by
    simp +decide [binding, annotation, hinitializer, htype, hexpr]
  have hopening : ∀ header, Uses lineMeans (blockOpening header) := by
    intro header
    simp +decide [blockOpening]
  have hcommas : ∀ {β : Type} {item : Grammar Rule β}, Uses lineMeans item →
      Uses lineMeans (parenthesized item) := by
    intro β item hitem
    simp +decide [parenthesized, commaSeparated, hitem]
  -- each rule unfolds to means the readers of which complain in one line
  cases rule with
  | file | block => exact absurd trivial h
  | indentedBlock header => simp [body, Script.indentedBlock, hopening]
  | line indent => simp +decide [body, Script.line, Script.lineItem, choice, hexpr]
  | decl indent => simp [body, Declaration.decl, choice]
  | stmt indent => simp [body, Statement.stmt, choice]
  | classNameDecl => simp +decide [body, Declaration.classNameDecl, hname]
  | extendsDecl => simp +decide [body, Declaration.extendsDecl, hname, Option.forall]
  | signalDecl => simp +decide [body, Declaration.signalDecl, signalParams, hname, hcommas]
  | enumDecl => simp +decide [body, Declaration.enumDecl, variants, hname]
  | enumVariant => simp +decide [body, Declaration.enumVariant, hname, hexpr]
  | classDecl indent => simp +decide [body, Declaration.classDecl, typeAfter, hname, htype]
  | functionDecl indent =>
    simp +decide [body, Declaration.functionDecl, functionArgs, typeAfter, hname, htype, hcommas]
  | functionArg => simp +decide [body, Declaration.functionArg, argAnnotation, hname, htype, hinitializer]
  | constDecl => simp +decide [body, Declaration.constDecl, hname, hbinding, Option.forall]
  | varDecl => simp +decide [body, Declaration.varDecl, setget, accessors, hname, hbinding]
  | ifStmt indent =>
    simp +decide [body, Statement.ifStmt, Statement.elifBranch, Statement.elseBranch,
      seekContinuation, Option.forall]
  | elifBranch indent => simp +decide [body, elifBody]
  | elseBranch indent => simp +decide [body, elseBody]
  | whileStmt indent => simp +decide [body, Statement.whileStmt]
  | forStmt indent => simp +decide [body, Statement.forStmt]
  | matchStmt indent => simp +decide [body, Statement.matchStmt, seekLine, hopening, hexpr]
  | matchCase indent => simp [body]
  | condition indent => simp +decide [body, Statement.condition, hexpr]
  | returnStmt => simp +decide [body, Statement.returnStmt, hexpr]
  | passStmt => simp +decide [body, Statement.passStmt]
  | assignStmt => simp +decide [body, Statement.assignStmt, hpostfixed, hexpr, Option.forall]
  | pair => simp +decide [body, Expression.pair, hexpr]
  | expr => simp [body, logic, sum, term, binary, Expression.unary, hpostfixed, Option.forall]
  | unary op => simp [body, Expression.unary, hpostfixed, Option.forall]
  | member base => simp [body, chain, subscripts, identOrCall, hname]
  | index | parens => simp +decide [body, enclosed, hexpr]
  | value => simp +decide [body, Expression.value, number, identOrCall, hname, Option.forall]
  | array => simp +decide [body, Expression.array, itemsUntil, hexpr]
  | object => simp +decide [body, Expression.object, itemsUntil]
  | nodePath => simp +decide [body, Expression.nodePath]
  | string => simp +decide [body, Expression.string]
  | int => simp [body]
  | functionCall name => simp [body, callArguments, hcommas, hexpr]

end Rule

namespace Script

variable {room : Nat} (hrules : ∀ {α : Type} (rule : Rule α), KeepsLines room (call rule))

include hrules

theorem keepsLines_blockLine (level : Nat) (required : Bool) :
    KeepsLines room (blockLine level required) := by
  intro c journal hjournal
  have hline := fun c => hrules (.line level) c journal hjournal
  refine leads_blockLine (fun _ => hjournal) (fun _ => leads_commentLine fun _ _ => hjournal)
    (fun _ _ _ => ?_) (fun _ _ _ => hline _) fun _ _ _ => ?_
  · exact List.forall_mem_cons.mpr ⟨Complaint.isOneLine_indentation (by decide) _ _ _, hjournal⟩
  · exact (hrules (.line level)).attempt _ journal hjournal

theorem keepsLines_block (level : Nat) (required : Bool) : KeepsLines room (block level required) := by
  rw [block_eq]
  refine KeepsLines.bind (KeepsLines.iterate (fun lines => ?_) []) fun lines c journal hjournal =>
    leads_pure hjournal
  refine (keepsLines_blockLine hrules level _).bind fun found c journal hjournal => ?_
  cases found <;> exact leads_pure hjournal

/-- What a file is blamed for has been written down. -/
theorem keepsLines_file : KeepsLines room file := fun c journal hjournal =>
  leads_file (hrules (.block 0 false) c journal hjournal) (fun _ _ _ _ hjournal' _ _ => hjournal')
    fun _ _ _ e hjournal' _ hbest =>
      ⟨hjournal', e, rfl, hjournal' e (Journal.mem_failures_of_furthest hbest)⟩

end Script

/-- All rules keep to lines. -/
theorem Rule.keepsLines (room : Nat) {α : Type} (rule : Rule α) : KeepsLines room (call rule) := by
  intro c journal hjournal
  refine leads_call_of_bodies (S := fun _ _ journal => journal.IsOneLine)
    (T := fun _ _ _ _ _ journal' => journal'.IsOneLine) (E := Failure.IsOneLine)
    (fun rule scope c journal hS => hS.tooDeep scope c.location)
    (fun room ih α rule c journal hS => ?_) room rule c journal hjournal
  have hrules : ∀ {β : Type} (rule : Rule β), KeepsLines room (call rule) := fun rule => ih rule
  by_cases hnotes : rule.Notes
  · cases rule with
    | file => exact Script.keepsLines_file hrules c journal hS
    | block level required => exact Script.keepsLines_block hrules level required c journal hS
    | _ => exact hnotes.elim
  · exact (uses_body_lineMeans rule hnotes).keepsLines id (fun _ hread => hread)
      (fun rule _ => hrules rule) c journal hS

/-! ### Reports -/

namespace ParseError

variable {e : ParseError}

theorem isOneLine_text (h : e.message.IsOneLine) : e.text.IsOneLine :=
  h.append (Text.IsOneLine.append (by decide) e.location.isOneLine_format)

theorem isOneLine_frameLine {frame : Frame} (h : frame.label.IsOneLine) :
    (frameLine frame).IsOneLine :=
  ((Text.IsOneLine.append (by decide) h).append (by decide)).append frame.location.isOneLine_format

theorem isOneLine_of_mem_shorten {labels : List Text} (h : ∀ label ∈ labels, label.IsOneLine) :
    ∀ label ∈ shorten labels, label.IsOneLine := by
  intro label hlabel
  unfold shorten at hlabel
  split at hlabel
  · exact h label hlabel
  · rcases List.mem_append.mp hlabel with htaken | hrest
    · exact h label (List.mem_of_mem_take htaken)
    · rcases List.mem_cons.mp hrest with rfl | hdropped
      · exact (Text.IsOneLine.append (by decide) (Text.isOneLine_ofNat _)).append (by decide)
      · exact h label (List.mem_of_mem_drop hdropped)

theorem isOneLine_trace (h : e.message.IsOneLine)
    (hframes : ∀ frame ∈ e.frames, frame.label.IsOneLine) : e.trace.IsOneLine := by
  have hlabels : ∀ label ∈ e.labels, label.IsOneLine := by
    intro label hlabel
    obtain ⟨frame, hframe, rfl⟩ := List.mem_map.mp hlabel
    exact hframes frame (List.mem_reverse.mp hframe)
  unfold trace
  split
  · exact isOneLine_text h
  · have hchain := Text.IsOneLine.join (s := " > ") (by decide) (isOneLine_of_mem_shorten hlabels)
    exact (hchain.append (by decide)).append (isOneLine_text h)

/-- The lines of the detail are the text and one for each frame. -/
theorem lines_detail (h : e.message.IsOneLine)
    (hframes : ∀ frame ∈ e.frames, frame.label.IsOneLine) :
    Text.lines e.detail = e.text :: e.frames.map frameLine := by
  refine Text.lines_unlines (List.cons_ne_nil _ _) fun line hline => ?_
  rcases List.mem_cons.mp hline with rfl | hline
  · exact (isOneLine_text h).ne_lineFeed
  · obtain ⟨frame, hframe, rfl⟩ := List.mem_map.mp hline
    exact (isOneLine_frameLine (hframes frame hframe)).ne_lineFeed

end ParseError

theorem Rule.isOneLine_labels : ∀ label ∈ Rule.labels, label.IsOneLine := by
  decide +kernel

namespace Script

variable {source : Text} {depth : Option Int} {failure : Failure}

/-- What a script is reported for: a message on one line, and rules by their names. -/
theorem exists_isOneLine_of_parse (h : parse source depth = .error failure) :
    ∃ e, failure = .parse e ∧ e.message.IsOneLine ∧
      ∀ frame ∈ e.frames, frame.label.IsOneLine := by
  have hnil : Journal.IsOneLine [] := fun e he => absurd he List.not_mem_nil
  obtain ⟨-, e, rfl, hmessage⟩ := exists_of_parse h fun room =>
    Rule.keepsLines room .file (Cursor.ofText source) [] hnil
  obtain ⟨journal, hrun⟩ := exists_run_of_parse h
  have hchain := meets_endsChains source (depthLimit depth)
  rw [run] at hrun
  rw [hrun] at hchain
  exact ⟨e, rfl, hmessage, fun frame hframe =>
    Rule.isOneLine_labels _ ((hchain.2 e rfl).chain.label_mem frame hframe)⟩

/-- The line of a directory about a script that is no script. -/
theorem line_eq_of_parse {e : ParseError} (h : parse source depth = .error (.parse e)) (path : Text)
    {options : Batch.Options} (hdepth : options.depth = depth) :
    (⟨path, Batch.parseText path source options⟩ : Batch.Report).line
      = path ++ (":ERROR: " ++ e.trace) := by
  have hread : Batch.parseText path source options
      = .error (.fileParse path e.trace (some e)) := by
    unfold Batch.parseText
    rw [hdepth, h]
  rw [hread]
  exact List.append_assoc path (":ERROR: " : Text) e.trace

/--
Whatever stands in a script, and under every depth limit, what is reported for it keeps to its lines.
The message and the trace are on one line each. The detail is the message and one line for each active
rule, the innermost first, with its name and the place where it has begun. So is the report on a file of
any path, with the message about the file. What a directory says about the file is on one line behind
the path.
-/
theorem report_eq_of_parse (h : parse source depth = .error failure) :
    ∃ e, failure = .parse e ∧ e.text.IsOneLine ∧ e.trace.IsOneLine ∧
      Text.lines e.detail = e.text :: e.frames.map ParseError.frameLine ∧
      (Text.lines e.detail).length = 1 + e.frames.length ∧
      (∀ frame ∈ e.frames, (ParseError.frameLine frame).IsOneLine ∧
        ParseError.frameLine frame = "  while parsing " ++ frame.label ++ " at " ++
          (Text.ofInt frame.location.line ++ ":" ++ Text.ofInt frame.location.column)) ∧
      ∀ path : Text,
        (Failure.fileParse path e.trace (some e)).report = Text.unlines
          ((Failure.fileParse path e.trace (some e)).text :: e.frames.map ParseError.frameLine) ∧
        ∀ options : Batch.Options, options.depth = depth → ∃ rest : Text, rest.IsOneLine ∧
          (⟨path, Batch.parseText path source options⟩ : Batch.Report).line = path ++ rest := by
  obtain ⟨e, rfl, hmessage, hlabels⟩ := exists_isOneLine_of_parse h
  have hlines := ParseError.lines_detail hmessage hlabels
  have htrace := ParseError.isOneLine_trace hmessage hlabels
  refine ⟨e, rfl, ParseError.isOneLine_text hmessage, htrace, hlines, ?_, ?_, ?_⟩
  · rw [hlines, List.length_cons, List.length_map, Nat.add_comm]
  · exact fun frame hframe => ⟨ParseError.isOneLine_frameLine (hlabels frame hframe), rfl⟩
  · -- the report repeats the lines of the detail under another first line
    intro path
    constructor
    · show Text.unlines (_ :: (Text.lines e.detail).drop 1) = _
      rw [hlines]
      rfl
    · intro options hdepth
      exact ⟨_, Text.IsOneLine.append (by decide) htrace, line_eq_of_parse h path hdepth⟩

/-- A line feed behind a backslash is called by its name, in a string that holds line feeds. -/
theorem report_eq_of_parse_newline :
    ∃ e, parse "a = \"b\n\\\n\"" none = .error (.parse e) ∧ e.code = .invalidEscape ∧
      e.frames.length = 8 ∧ e.text.IsOneLine ∧ (Text.lines e.detail).length = 9 := by
  obtain ⟨e, hparse, hcode, hlength⟩ : ∃ e : ParseError,
      parse "a = \"b\n\\\n\"" none = .error (.parse e) ∧ e.code = .invalidEscape ∧
        e.frames.length = 8 := by decide +kernel
  obtain ⟨d, hd, htext, -, -, hlines, -⟩ := report_eq_of_parse hparse
  obtain rfl := Failure.parse.inj hd
  exact ⟨e, hparse, hcode, hlength, htext, by rw [hlines, hlength]⟩

end Script

end GDScript
