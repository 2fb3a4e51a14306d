import GDScript.Proofs.Rendering.Script

/-!
# Quotations in the debug rendering

What a script holds between quotes, its strings and the quoted path that it extends, is kept as it is
written, with the escapes that belong to its quotes. The debug rendering writes these texts one behind
the other (`Debug.writesAll_block`). A string is written between its own quotes, so it can be read back.
A path is always written between double quotes; that cannot be read back if the path was written
between single ones and holds a quote (`Script.readsBack_iff_of_parse`).
-/

namespace GDScript

/-! ### Bodies between other quotes -/

/-- A string cannot escape the quote of the other kind. -/
theorem Text.escapable_unit {quote other : Quote} (hne : quote ≠ other) :
    escapable other.unit quote.unit = false := by
  cases quote <;> cases other <;> first | exact absurd rfl hne | rfl

/-- What may stand between quotes of one kind may stand between others if it holds no quotes. -/
theorem Text.IsBody.isBody_iff {quote other : Quote} {body : Text} (hne : quote ≠ other)
    (h : body.IsBody quote.unit) :
    body.IsBody other.unit ↔ quote.unit ∉ body ∧ other.unit ∉ body := by
  have hmem : ∀ {u v : CodeUnit} {s : Text}, v ∉ u :: s ↔ v ≠ u ∧ v ∉ s := by
    intro u v s
    rw [List.mem_cons, not_or]
  induction h with
  | nil => exact iff_of_true .nil ⟨List.not_mem_nil, List.not_mem_nil⟩
  | @unit u s hquote hbackslash hs ih =>
    rw [hmem, hmem]
    constructor
    · intro h
      cases h with
      | unit hother _ h => exact ⟨⟨hquote.symm, (ih.mp h).1⟩, hother.symm, (ih.mp h).2⟩
      | escape => exact absurd rfl hbackslash
    · rintro ⟨⟨-, hs⟩, hother, hs'⟩
      exact .unit hother.symm hbackslash (ih.mpr ⟨hs, hs'⟩)
  | @escape u s hu hs ih =>
    rw [hmem, hmem, hmem, hmem]
    constructor
    · intro h
      cases h with
      | unit _ hbackslash => exact absurd rfl hbackslash
      | escape hu' h =>
        -- strings of both kinds can escape the unit, so it is no quote
        have hquote : quote.unit ≠ u := by
          rintro rfl
          rw [escapable_unit hne] at hu'
          cases hu'
        have hother : other.unit ≠ u := by
          rintro rfl
          rw [escapable_unit hne.symm] at hu
          cases hu
        exact ⟨⟨quote.unit_ne_backslash, hquote, (ih.mp h).1⟩, other.unit_ne_backslash, hother,
          (ih.mp h).2⟩
    · rintro ⟨⟨-, hquote, hs⟩, -, -, hs'⟩
      have hu' : escapable other.unit u = true := by
        simp only [escapable, Bool.or_eq_true, beq_iff_eq] at hu ⊢
        exact hu.imp_left (Or.imp_left fun heq => absurd heq.symm hquote)
      exact .escape hu' (ih.mpr ⟨hs, hs'⟩)

/-! ### Quotations -/

/-- What a tree holds between quotes: a string, or the path of a script. -/
inductive Quotation where
  | string (literal : StringLiteral)
  | path (body : Text)
deriving DecidableEq, Repr

namespace Quotation

/-- What stands between the quotes, escapes as they are written. -/
def body : Quotation → Text
  | .string literal => literal.body
  | .path body => body

/-- What the debug rendering writes for the quotation. -/
def format : Quotation → Text
  | .string literal => (Expr.string literal).format
  | .path body => Debug.extendsTarget (.path body)

/-- The quotation may be written between its own quotes, or between some. -/
def IsValid : Quotation → Prop
  | .string literal => literal.IsValid
  | .path body => ∃ quote : Quote, body.IsBody quote.unit

/-- What is written for the quotation is a string, all of it, with the same body. -/
def ReadsBack (q : Quotation) : Prop :=
  ∃ quote, Reader.string q.format = .took (some ⟨q.body, quote⟩) q.format.length

/-- The quotation is a path from between single quotes that holds a quote. -/
def ChangesQuotes : Quotation → Prop
  | .string _ => False
  | .path body => body.IsBody Quote.single.unit ∧
      (Quote.single.unit ∈ body ∨ Quote.double.unit ∈ body)

theorem readsBack_string {literal : StringLiteral} (h : literal.IsValid) :
    ReadsBack (.string literal) := by
  have hread := Reader.string_append h []
  rw [List.append_nil] at hread
  exact ⟨literal.quote, hread⟩

/-- A path is always written between double quotes. -/
theorem readsBack_path_iff {body : Text} :
    ReadsBack (.path body) ↔ body.IsBody Quote.double.unit := by
  constructor
  · rintro ⟨quote, hread⟩
    obtain ⟨hvalid, ⟨rest, hformat⟩, -⟩ := Reader.isValid_of_string hread
    -- what was read starts with the quote that has been written
    have hunit : Quote.double.unit = quote.unit := (List.cons.inj hformat).1
    rw [hunit]
    exact hvalid
  · intro hbody
    have hvalid : StringLiteral.IsValid ⟨body, .double⟩ := hbody
    exact readsBack_string hvalid

/-- A quotation is not read back exactly if it gets other quotes and holds one. -/
theorem IsValid.readsBack_iff {q : Quotation} (h : q.IsValid) : q.ReadsBack ↔ ¬q.ChangesQuotes := by
  cases q with
  | string literal => exact iff_of_true (readsBack_string h) not_false
  | path body =>
    rw [readsBack_path_iff]
    by_cases hsingle : body.IsBody Quote.single.unit
    · rw [hsingle.isBody_iff (by decide), ← not_or]
      exact not_congr ⟨fun hmem => ⟨hsingle, hmem⟩, And.right⟩
    · obtain ⟨quote, hbody⟩ := h
      cases quote with
      | single => exact absurd hbody hsingle
      | double => exact iff_of_true hbody fun hchanges => hsingle hchanges.1

end Quotation

/-! ### The quotations of a tree -/

mutual

/-- The strings of an expression, in their order. -/
def Expr.quoted : Expr → List Quotation
  | .string literal => [.string literal]
  | .array elements => Expr.quotedList elements
  | .object pairs => Expr.quotedPairs pairs
  | .call _ arguments => Expr.quotedList arguments
  | .binary _ left right => left.quoted ++ right.quoted
  | .unary _ operand => operand.quoted
  | .null | .boolean _ | .int _ | .float _ | .nodePath _ | .ident _ => []

/-- The strings of some expressions. -/
def Expr.quotedList : List Expr → List Quotation
  | [] => []
  | e :: rest => e.quoted ++ Expr.quotedList rest

/-- The strings of some pairs. -/
def Expr.quotedPairs : List (Expr × Expr) → List Quotation
  | [] => []
  | (key, value) :: rest => key.quoted ++ value.quoted ++ Expr.quotedPairs rest

end

/-- The strings of a value, if there is one. -/
def Expr.quotedOption (value : Option Expr) : List Quotation := value.toList.flatMap Expr.quoted

theorem Expr.quotedList_eq_flatMap (es : List Expr) : quotedList es = es.flatMap quoted := by
  induction es with
  | nil => rfl
  | cons e es ih => rw [quotedList, ih, List.flatMap_cons]

theorem Expr.quotedPairs_eq_flatMap (ps : List (Expr × Expr)) :
    quotedPairs ps = ps.flatMap fun p => p.1.quoted ++ p.2.quoted := by
  induction ps with
  | nil => rfl
  | cons p ps ih => rw [quotedPairs, ih, List.flatMap_cons]

mutual

/-- The quotations of a declaration. -/
def Decl.quoted : Decl → List Quotation
  | .varDecl d => Expr.quotedOption d.value
  | .constDecl d => d.value.quoted
  | .extendsDecl (.path body) => [.path body]
  | .enumDecl _ variants => variants.flatMap fun v => Expr.quotedOption v.value
  | .functionDecl head body =>
    head.arguments.flatMap (fun a => Expr.quotedOption a.defaultValue) ++ Line.quotedAll body
  | .classDecl _ _ body => Line.quotedAll body
  | .extendsDecl (.name _) | .classNameDecl _ | .signalDecl _ _ => []

/-- The quotations of a statement. -/
def Stmt.quoted : Stmt → List Quotation
  | .ifStmt branch elifs none => branch.quoted ++ Condition.quotedAll elifs
  | .ifStmt branch elifs (some body) =>
    branch.quoted ++ Condition.quotedAll elifs ++ Line.quotedAll body
  | .whileStmt test | .forStmt test => test.quoted
  | .matchStmt subject cases => subject.quoted ++ Condition.quotedAll cases
  | .assignStmt target _ value => target.quoted ++ value.quoted
  | .returnStmt value => Expr.quotedOption value
  | .passStmt => []

/-- The quotations of a branch. -/
def Condition.quoted : Condition → List Quotation
  | .mk e body => e.quoted ++ Line.quotedAll body

/-- The quotations of some branches. -/
def Condition.quotedAll : List Condition → List Quotation
  | [] => []
  | c :: rest => c.quoted ++ Condition.quotedAll rest

/-- The quotations of a line. -/
def Line.quoted : Line → List Quotation
  | .decl d _ => d.quoted
  | .stmt s _ => s.quoted
  | .expr e _ => e.quoted
  | .comment _ _ => []

/-- The quotations of some lines. -/
def Line.quotedAll : List Line → List Quotation
  | [] => []
  | l :: rest => l.quoted ++ Line.quotedAll rest

end

/-- Every string and every quoted path of a block, in the order of its lines. -/
abbrev Block.quoted (block : Block) : List Quotation := Line.quotedAll block

/-! ### Texts that hold quotations -/

/-- The first texts stand in the last one, one behind the other. -/
inductive Text.Holds : List Text → Text → Prop where
  | nothing (t : Text) : Holds [] t
  | next {s t : Text} {ss : List Text} (before : Text) (h : Holds ss t) :
      Holds (s :: ss) (before ++ (s ++ t))

namespace Text.Holds

variable {ss ss' : List Text} {s t : Text}

theorem behind (h : Holds ss t) (s : Text) : Holds ss (s ++ t) := by
  cases h with
  | nothing => exact .nothing _
  | next before h =>
    rw [← List.append_assoc]
    exact .next _ h

theorem append (hs : Holds ss s) (ht : Holds ss' t) : Holds (ss ++ ss') (s ++ t) := by
  induction hs with
  | nothing s => exact ht.behind s
  | next before _ ih =>
    rw [List.append_assoc, List.append_assoc]
    exact .next before ih

end Text.Holds

namespace Debug

/-- The text holds what is written for the quotations, which are valid, one behind the other. -/
structure Writes (qs : List Quotation) (t : Text) : Prop where
  valid : ∀ q ∈ qs, q.IsValid
  holds : Text.Holds (qs.map Quotation.format) t

section Writes

variable {qs qs' : List Quotation} {s t : Text} {q : Quotation}

theorem writes_nothing (t : Text) : Writes [] t := ⟨fun _ hq => absurd hq List.not_mem_nil, .nothing t⟩

theorem writes_format (h : q.IsValid) : Writes [q] q.format := by
  refine ⟨List.forall_mem_singleton.mpr h, ?_⟩
  have hholds := Text.Holds.next (s := q.format) [] (.nothing [])
  rwa [List.append_nil] at hholds

theorem Writes.append (hs : Writes qs s) (ht : Writes qs' t) : Writes (qs ++ qs') (s ++ t) := by
  refine ⟨List.forall_mem_append.mpr ⟨hs.valid, ht.valid⟩, ?_⟩
  rw [List.map_append]
  exact hs.holds.append ht.holds

theorem Writes.behind (h : Writes qs t) (s : Text) : Writes qs (s ++ t) := ⟨h.valid, h.holds.behind s⟩

theorem Writes.before (h : Writes qs s) (t : Text) : Writes qs (s ++ t) := by
  have happend := h.append (writes_nothing t)
  rwa [List.append_nil] at happend

end Writes

/-- Texts that hold what is written for the quotations. -/
inductive WritesAll : List Quotation → List Text → Prop where
  | nil : WritesAll [] []
  | cons {qs qs' : List Quotation} {t : Text} {ts : List Text} (h : Writes qs t)
      (hs : WritesAll qs' ts) : WritesAll (qs ++ qs') (t :: ts)

namespace WritesAll

variable {qs qs' : List Quotation} {ts ts' : List Text} {t : Text}

theorem single (h : Writes qs t) : WritesAll qs [t] := by
  have hcons := WritesAll.cons h .nil
  rwa [List.append_nil] at hcons

theorem append (h : WritesAll qs ts) (h' : WritesAll qs' ts') : WritesAll (qs ++ qs') (ts ++ ts') := by
  induction h with
  | nil => exact h'
  | cons h _ ih =>
    rw [List.append_assoc]
    exact .cons h ih

theorem map {α : Type} {as : List α} {f : α → Text} {g : α → List Quotation}
    (h : ∀ a ∈ as, Writes (g a) (f a)) : WritesAll (as.flatMap g) (as.map f) := by
  induction as with
  | nil => exact .nil
  | cons a as ih =>
    obtain ⟨ha, has⟩ := List.forall_mem_cons.mp h
    exact .cons ha (ih has)

theorem join (h : WritesAll qs ts) (separator : Text) : Writes qs (Text.join separator ts) := by
  induction h with
  | nil => exact writes_nothing []
  | @cons qs qs' t ts h hs ih =>
    cases ts with
    | nil =>
      cases hs
      rw [Text.join, List.intercalate_singleton, List.append_nil]
      exact h
    | cons next ts =>
      rw [Text.join, List.intercalate_cons_cons]
      exact (h.before separator).append ih

end WritesAll

end Debug

open Debug (Writes WritesAll writes_nothing writes_format)

/-! ### What is written for a tree -/

/-- The form of an expression holds its strings. -/
theorem Expr.Fits.writes_format {words : List Text} {place : Place} {e : Expr}
    (h : e.Fits words place) : Writes e.quoted e.format := by
  -- an operator, an index and a member are written alike
  have hbinary : ∀ {op : BinaryOp} {left right : Expr}, Writes left.quoted left.format →
      Writes right.quoted right.format →
        Writes (Expr.binary op left right).quoted (Expr.binary op left right).format := by
    intro op left right hleft hright
    exact (((hleft.behind _).before " ").append hright).before ")"
  induction h with
  | @constant c h =>
    simp only [constants, List.mem_cons, List.not_mem_nil, or_false] at h
    rcases h with rfl | rfl | rfl | rfl | rfl <;> exact writes_nothing _
  | int | float | nodePath | ident => exact writes_nothing _
  | string h => exact Debug.writes_format (q := .string _) h
  | @array es _ ih =>
    rw [quoted, format, quotedList_eq_flatMap, formatList_eq_map]
    exact (((WritesAll.map ih).join ", ").behind "[").before "]"
  | @object ps _ _ ihk ihv =>
    have hpair : ∀ p ∈ ps, Writes (p.1.quoted ++ p.2.quoted) (formatPair p) := by
      intro p hp
      exact ((ihk p hp).before ": ").append (ihv p hp)
    rw [quoted, format, quotedPairs_eq_flatMap, formatPairs_eq_map]
    exact (((WritesAll.map hpair).join ", ").behind "\x7b").before "\x7d"
  | unary _ ih => exact (ih.behind _).before ")"
  | binary _ _ _ _ ihl ihr => exact hbinary ihl ihr
  | @call place name es _ _ _ ih =>
    rw [quoted, format, quotedList_eq_flatMap, formatList_eq_map]
    have hname : WritesAll ([] ++ es.flatMap quoted) (name :: es.map format) :=
      .cons (writes_nothing name) (WritesAll.map ih)
    exact ((hname.join " ").behind "(Call ").before ")"
  | index _ _ _ ih ihi => exact hbinary ih ihi
  | attr _ _ _ ih ihm => exact hbinary ih ihm
  | link _ ih => exact ih
  | target _ ih => exact ih

namespace Debug

variable {words : List Text} {level : Nat}

theorem writes_optional {value : Option Expr} (h : ∀ e ∈ value, e.Fits words .value) (before : Text) :
    Writes (Expr.quotedOption value) (optional before Expr.format value) := by
  cases value with
  | none => exact writes_nothing _
  | some e =>
    have hvalue := (h e rfl).writes_format.behind before
    rwa [Expr.quotedOption, Option.toList_some, List.flatMap_singleton]

theorem writes_varDecl {d : VarDecl} (h : d.IsWellFormed words) :
    Writes (Expr.quotedOption d.value) (varDecl d) := by
  unfold varDecl
  refine Writes.before (Writes.behind ?_ _) _
  cases d.typing with
  | inferred => exact (writes_optional h.value " ").behind " :="
  | declared hint => exact (writes_optional h.value " = ").behind _

theorem writes_functionHead {f : FunctionHead} (h : f.IsWellFormed words) :
    Writes (f.arguments.flatMap fun a => Expr.quotedOption a.defaultValue) (functionHead f) := by
  have harguments : WritesAll (f.arguments.flatMap fun a => Expr.quotedOption a.defaultValue)
      (f.arguments.map functionArg) := by
    refine WritesAll.map fun a ha => ?_
    exact (writes_optional (h.arguments a ha).defaultValue " = ").behind _
  unfold functionHead
  exact (((harguments.join ", ").behind _).before ")").before _

/-- A line of text, at any level. -/
theorem writesAll_indented {qs : List Quotation} {t : Text} (h : Writes qs t) (level : Nat) :
    WritesAll qs [indented level t] :=
  .single (h.behind _)

/-- A line of text, and behind it further ones. -/
theorem writesAll_indented_cons {qs qs' : List Quotation} {t : Text} {ts : List Text}
    (h : Writes qs t) (hs : WritesAll qs' ts) : WritesAll (qs ++ qs') (indented level t :: ts) :=
  .cons (h.behind _) hs

/-! The cases follow the rendering: a text of its own for each line and branch, then what it governs. -/

mutual

theorem writesAll_decl : ∀ {d : Decl}, d.IsWellFormed words → ∀ {level : Nat},
    WritesAll d.quoted (decl level d)
  | .varDecl d, h => by
    cases h with
    | varDecl h => exact writesAll_indented (writes_varDecl h) _
  | .constDecl d, h => by
    cases h with
    | constDecl h => exact writesAll_indented (h.value.writes_format.behind _) _
  | .extendsDecl (.path body), h => by
    cases h with
    | extendsDecl h => exact writesAll_indented ((writes_format (q := .path body) h).behind _) _
  | .enumDecl name variants, h => by
    cases h with
    | enumDecl _ _ hvariants =>
      -- each variant is written with its value, and only values quote
      have hall : WritesAll (variants.flatMap fun v => Expr.quotedOption v.value)
          (variants.map enumVariant) :=
        WritesAll.map fun v hv => (writes_optional (hvariants v hv).value " = ").behind _
      exact writesAll_indented (((hall.join ", ").behind _).before " \x7d") _
  | .functionDecl head body, h => by
    cases h with
    | functionDecl hhead hbody =>
      exact writesAll_indented_cons (writes_functionHead hhead) (writesAll_block hbody)
  | .classDecl name base body, h => by
    cases h with
    | classDecl _ _ hbody =>
      exact writesAll_indented_cons (writes_nothing _) (writesAll_block hbody)
  | .extendsDecl (.name _), _ | .classNameDecl _, _ | .signalDecl _ _, _ =>
    writesAll_indented (writes_nothing _) _

theorem writesAll_stmt : ∀ {s : Stmt}, s.IsWellFormed words → ∀ {level : Nat},
    WritesAll s.quoted (stmt level s)
  | .ifStmt branch elifs none, h => by
    cases h with
    | ifStmt hbranch helifs _ =>
      rw [Stmt.quoted, stmt, elseBranch, List.append_nil]
      exact (writesAll_condition hbranch).append (writesAll_conditions helifs)
  | .ifStmt branch elifs (some body), h => by
    cases h with
    | ifStmt hbranch helifs hlast =>
      rw [Stmt.quoted, stmt, elseBranch]
      exact ((writesAll_condition hbranch).append (writesAll_conditions helifs)).append
        (writesAll_indented_cons (writes_nothing _) (writesAll_block (hlast body rfl)))
  | .whileStmt test, h => by
    cases h with
    | whileStmt h => exact writesAll_condition h
  | .forStmt test, h => by
    cases h with
    | forStmt h => exact writesAll_condition h
  -- the cases come behind the line of the subject
  | .matchStmt subject cs, h => by
    cases h with
    | matchStmt hsubject _ hcases =>
      exact writesAll_indented_cons (hsubject.writes_format.behind _) (writesAll_conditions hcases)
  | .assignStmt target op value, h => by
    cases h with
    | assignStmt htarget hvalue =>
      have htargets := ((htarget.writes_format.behind "Assign ").before " ").before op.sign
      exact writesAll_indented ((htargets.before " ").append hvalue.writes_format) _
  | .returnStmt value, h => by
    cases h with
    | returnStmt h => exact writesAll_indented ((writes_optional h " ").behind "Return") _
  | .passStmt, _ => writesAll_indented (writes_nothing _) _

theorem writesAll_condition : ∀ {c : Condition} {keyword : Text}, c.IsWellFormed words →
    ∀ {level : Nat}, WritesAll c.quoted (condition keyword level c)
  | .mk e body, keyword, h => by
    cases h with
    | mk he hbody => exact writesAll_indented_cons (he.writes_format.behind _) (writesAll_block hbody)

theorem writesAll_conditions : ∀ {cs : List Condition} {keyword : Text},
    (∀ c ∈ cs, c.IsWellFormed words) → ∀ {level : Nat},
    WritesAll (Condition.quotedAll cs) (conditions keyword level cs)
  | [], _, _ => .nil
  | c :: rest, keyword, h => by
    rw [List.forall_mem_cons] at h
    rw [Condition.quotedAll, conditions]
    exact (writesAll_condition h.1).append (writesAll_conditions h.2)

theorem writesAll_line : ∀ {l : Line}, l.IsWellFormed words → ∀ {level : Nat},
    WritesAll l.quoted (line level l)
  | .decl d span, h => by
    cases h with
    | decl h => exact writesAll_decl h
  | .stmt s span, h => by
    cases h with
    | stmt h => exact writesAll_stmt h
  | .expr e span, h => by
    cases h with
    | expr h => exact writesAll_indented (h.writes_format.behind _) _
  | .comment t span, _ => writesAll_indented (writes_nothing _) _

/-- The texts for a block hold its quotations in turn. -/
theorem writesAll_block : ∀ {lines : List Line}, (∀ l ∈ lines, l.IsWellFormed words) →
    ∀ {level : Nat}, WritesAll (Line.quotedAll lines) (block level lines)
  | [], _ => .nil
  | l :: rest, h => by
    rw [List.forall_mem_cons] at h
    rw [Line.quotedAll, block]
    exact (writesAll_line h.1).append (writesAll_block h.2)

end

end Debug

namespace Script

variable {source : Text} {depth : Option Int} {block : Block}

/--
The debug rendering of a script holds what is written for each string and each quoted path of its tree,
one behind the other. All of these are strings with the body that the tree holds, but for the paths
that get other quotes than they had and hold a quote.
-/
theorem readsBack_iff_of_parse (h : parse source depth = .ok block) :
    Text.Holds (block.quoted.map Quotation.format) (Debug.render block) ∧
      ∀ q ∈ block.quoted, q.ReadsBack ↔ ¬q.ChangesQuotes := by
  obtain ⟨-, hwell⟩ := exists_found_of_parse h fun room => Rule.areSound room .file _
  have hall : WritesAll block.quoted (Debug.block 0 block) := Debug.writesAll_block hwell
  have hwrites : Writes block.quoted (Debug.render block) := hall.join [CodeUnit.lineFeed]
  exact ⟨hwrites.holds, fun q hq => (hwrites.valid q hq).readsBack_iff⟩

/-- A string keeps its quotes; a path between single quotes gets double ones, and holds one here. -/
theorem readsBack_iff_of_parse_path : ∃ block,
    parse "extends 'a\"b'\nf([\"c'\"])" none = .ok block ∧
    block.quoted = [.path "a\"b", .string ⟨"c'", .double⟩] ∧
    Debug.render block = "Extends \"a\"b\"\nExpr (Call f [\"c'\"])" ∧
    Text.Holds [Quotation.format (.path "a\"b"), Quotation.format (.string ⟨"c'", .double⟩)]
      (Debug.render block) ∧
    ¬Quotation.ReadsBack (.path "a\"b") ∧ Quotation.ReadsBack (.string ⟨"c'", .double⟩) := by
  have hread : ((parse "extends 'a\"b'\nf([\"c'\"])" none).toOption.any fun block => decide (
      block.quoted = [.path "a\"b", .string ⟨"c'", .double⟩] ∧
        Debug.render block = "Extends \"a\"b\"\nExpr (Call f [\"c'\"])")) = true := by
    decide +kernel
  cases hparse : parse "extends 'a\"b'\nf([\"c'\"])" none with
  | error failure =>
    rw [hparse] at hread
    cases hread
  | ok block =>
    rw [hparse] at hread
    obtain ⟨hquoted, hrender⟩ := of_decide_eq_true hread
    obtain ⟨hholds, hback⟩ := readsBack_iff_of_parse hparse
    rw [hquoted] at hholds hback
    have hbody : Text.IsBody Quote.single.unit "a\"b" :=
      .unit (by decide) (by decide) (.unit (by decide) (by decide) (.unit (by decide) (by decide) .nil))
    -- the path is written with double quotes, one of which it holds
    have hchanges : Quotation.ChangesQuotes (.path "a\"b") := ⟨hbody, .inr (by decide)⟩
    exact ⟨block, rfl, hquoted, hrender, hholds,
      fun hpath => (hback _ List.mem_cons_self).mp hpath hchanges,
      (hback _ (List.mem_cons_of_mem _ List.mem_cons_self)).mpr id⟩

end Script

end GDScript
