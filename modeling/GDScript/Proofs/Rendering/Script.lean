import GDScript.Proofs.Rendering.Expression
import GDScript.Proofs.Rendering.Outline
import GDScript.Proofs.Split
import GDScript.Proofs.Stretch.Script

/-!
# The debug rendering, line by line

The debug rendering of a script shows its outline (`Script.shows_outline_of_parse`): for each heading
it has a text, indented by two spaces for each level, that goes on with the keyword. Names, numerals,
types, operators and comments stand on one line, so such a text has no line feeds but those between
quotes (`Expr.Fits.feeds_format`, `Debug.heads_block`). A string that spans lines is written as it
stands: its line is broken, and only without such strings and paths is there a line for each heading.
-/

namespace GDScript

open Grammar

/-! ### Line feeds in texts of the tree -/

namespace Text

/-- A text without line feeds has none. -/
theorem feeds_ofString {s : String} (h : ∀ u ∈ ofString s, u ≠ CodeUnit.lineFeed) :
    (ofString s).feeds = 0 :=
  feeds_eq_zero_iff.mpr h

/-- A run of bare units stands on one line. -/
theorem IsRun.feeds {s : Text} (h : s.IsRun CodeUnit.isBare) : s.feeds = 0 := by
  refine feeds_eq_zero_iff.mpr fun u hu => ?_
  rintro rfl
  exact absurd (h.2 _ hu) (by decide)

/-- A name stands on one line. -/
theorem IsName.feeds {s : Text} (h : s.IsName) : s.feeds = 0 := h.isRun.feeds

/-- A name with its members stands on one line. -/
theorem IsChain.feeds {s : Text} (h : s.IsChain CodeUnit.dot) : s.feeds = 0 :=
  (h.isRun (by decide)).feeds

/-- A comment stands on one line. -/
theorem IsCommentText.feeds {s : Text} (h : s.IsCommentText) : s.feeds = 0 :=
  feeds_eq_zero_iff.mpr fun u hu => ne_lineFeed_of_isLineEnd (h.line u hu)

end Text

/-- The quotes add no line feed to what stands between them. -/
theorem StringLiteral.feeds_write (literal : StringLiteral) :
    literal.write.feeds = literal.body.feeds := by
  have hquote : Text.feeds [literal.quote.unit] = 0 := by
    cases literal.quote <;> rfl
  have hwrite : literal.write = [literal.quote.unit] ++ literal.body ++ [literal.quote.unit] := rfl
  rw [hwrite, Text.feeds_append, Text.feeds_append, hquote, Nat.zero_add, Nat.add_zero]

namespace Expr

variable {words : List Text} {place : Place} {e : Expr}

/-- The list is rendered item by item. -/
theorem formatList_eq_map (es : List Expr) : formatList es = es.map format := by
  induction es with
  | nil => rfl
  | cons e es ih => rw [formatList, ih, List.map_cons]

/-- A key with its value. -/
def formatPair (p : Expr × Expr) : Text := p.1.format ++ ": " ++ p.2.format

/-- The pairs are rendered one by one. -/
theorem formatPairs_eq_map (ps : List (Expr × Expr)) : formatPairs ps = ps.map formatPair := by
  induction ps with
  | nil => rfl
  | cons p ps ih => rw [formatPairs, ih, List.map_cons, formatPair]

/-- The list quotes what its items quote, in turn. -/
theorem quotationsList_eq_flatMap (es : List Expr) :
    quotationsList es = es.flatMap quotations := by
  induction es with
  | nil => rfl
  | cons e es ih => rw [quotationsList, ih, List.flatMap_cons]

/-- A pair quotes what its key and then its value quote. -/
theorem quotationsPairs_eq_flatMap (ps : List (Expr × Expr)) :
    quotationsPairs ps = ps.flatMap fun p => p.1.quotations ++ p.2.quotations := by
  induction ps with
  | nil => rfl
  | cons p ps ih => rw [quotationsPairs, ih, List.flatMap_cons]

/-- Of an expression only what stands between quotes holds line feeds. -/
theorem Fits.feeds_format (h : e.Fits words place) :
    e.format.feeds = Text.feeds e.quotations.flatten := by
  have hname : ∀ {place : Place} {name : Text}, place.Allows words name → name.feeds = 0 := by
    intro place name h
    cases place with
    | value | target => exact h.isName.feeds
    | link | member => exact Text.IsName.feeds h
  have hbinary : ∀ {op : BinaryOp} {left right : Expr},
      left.format.feeds = Text.feeds left.quotations.flatten →
      right.format.feeds = Text.feeds right.quotations.flatten →
      (Expr.binary op left right).format.feeds
        = Text.feeds (Expr.binary op left right).quotations.flatten := by
    intro op left right hl hr
    simp +decide [format, quotations, Text.feeds_ofString, op.isName_name.feeds, hl, hr]
  -- what fits a place: the keys, the values and the parts of an expression have their own
  -- quotations
  induction h with
  | @constant c h =>
    simp only [constants, List.mem_cons, List.not_mem_nil, or_false] at h
    rcases h with rfl | rfl | rfl | rfl | rfl <;> rfl
  | int h => exact h.isRun.feeds
  | float h => exact h.isRun.feeds
  | string h => simp [format, quotations, StringLiteral.feeds_write]
  | nodePath h => simp [format, quotations]
  | @array es _ ih =>
    simp +decide [format, quotations, Text.feeds_ofString, Text.feeds_join, formatList_eq_map,
      quotationsList_eq_flatMap, Text.feeds_flatten_map ih]
  | @object ps _ _ ihk ihv =>
    have hpair : ∀ p ∈ ps,
        (formatPair p).feeds = Text.feeds (p.1.quotations ++ p.2.quotations).flatten := by
      intro p hp
      simp +decide [formatPair, Text.feeds_ofString, ihk p hp, ihv p hp]
    simp +decide [format, quotations, Text.feeds_ofString, Text.feeds_join, formatPairs_eq_map,
      quotationsPairs_eq_flatMap, Text.feeds_flatten_map hpair]
  | @unary op e _ ih =>
    simp +decide [format, quotations, Text.feeds_ofString, op.isName_name.feeds, ih]
  | binary _ _ _ _ ihl ihr => exact hbinary ihl ihr
  | ident _ h => simp [format, quotations, hname h]
  | @call place name es _ h _ ih =>
    simp +decide [format, quotations, Text.feeds_ofString, Text.feeds_join, formatList_eq_map,
      quotationsList_eq_flatMap, Text.feeds_flatten_map ih, hname h]
  | index _ _ _ ih ihi => exact hbinary ih ihi
  | attr _ _ _ ih ihm => exact hbinary ih ihm
  | link _ ih => exact ih
  | target _ ih => exact ih

end Expr

/-! ### Line feeds in lines of text -/

namespace Debug

variable {words : List Text}

/-- An optional part has no line feed if what it may hold has none. -/
theorem feeds_optional {α : Type} {before : Text} {f : α → Text} {found : Option α}
    (hbefore : before.feeds = 0) (hf : ∀ a ∈ found, (f a).feeds = 0) :
    (optional before f found).feeds = 0 := by
  cases found with
  | none => rfl
  | some a => rw [optional, Text.feeds_append, hbefore, hf a rfl]

/-- An optional text has no line feed if the text has none. -/
theorem feeds_optional_plain {before : Text} {found : Option Text} (hbefore : before.feeds = 0)
    (h : ∀ t ∈ found, t.feeds = 0) : (optional before plain found).feeds = 0 :=
  feeds_optional hbefore h

/-- An optional expression has the line feeds of its quotations. -/
theorem feeds_optional_format {before : Text} {value : Option Expr} (hbefore : before.feeds = 0)
    (h : ∀ e ∈ value, e.Fits words .value) :
    (optional before Expr.format value).feeds = Text.feeds (Expr.quotationsOption value).flatten := by
  cases value with
  | none => rfl
  | some e =>
    rw [optional, Text.feeds_append, hbefore, (h e rfl).feeds_format, Nat.zero_add]
    simp [Expr.quotationsOption]

/-- Of a variable only the value may quote line feeds. -/
theorem feeds_varDecl {d : VarDecl} (h : d.IsWellFormed words) :
    (varDecl d).feeds = Text.feeds (Expr.quotationsOption d.value).flatten := by
  -- only the value can hold a string, and so a line feed; names and types hold none
  have hmodifier : (optional [] (fun m => VarModifier.word m ++ " ") d.modifier).feeds = 0 :=
    feeds_optional rfl fun m _ => by cases m <;> decide
  have hsetter : (d.setter.getD []).feeds = 0 := by
    cases hd : d.setter with
    | none => rfl
    | some name => exact (h.setter name hd).feeds
  have hgetter : (optional ", " plain d.getter).feeds = 0 :=
    feeds_optional_plain (by decide) fun name hname => (h.getter name hname).feeds
  have hvalue : ∀ before : Text, before.feeds = 0 →
      (optional before Expr.format d.value).feeds
        = Text.feeds (Expr.quotationsOption d.value).flatten :=
    fun _ hbefore => feeds_optional_format hbefore h.value
  have haccessors : (if d.setter.isNone && d.getter.isNone then []
      else " setget " ++ d.setter.getD [] ++ optional ", " plain d.getter : Text).feeds = 0 := by
    split
    · rfl
    · simp +decide [Text.feeds_ofString, hsetter, hgetter]
  simp only [varDecl, Text.feeds_append, hmodifier, h.name.feeds, haccessors]
  cases htyping : d.typing with
  | inferred => simp +decide [Text.feeds_ofString, hvalue]
  | declared hint =>
    have hhint : (optional ": " plain hint).feeds = 0 :=
      feeds_optional_plain (by decide) fun t ht =>
        (h.typing t (by rw [htyping]; exact ht)).feeds
    simp +decide [Text.feeds_ofString, hvalue, hhint]

/-- Of a constant only the value may quote line feeds. -/
theorem feeds_constDecl {d : ConstDecl} (h : d.IsWellFormed words) :
    (constDecl d).feeds = Text.feeds d.value.quotations.flatten := by
  have hhint : (optional ": " plain d.typing.hint?).feeds = 0 :=
    feeds_optional_plain (by decide) fun t ht => (h.typing t ht).feeds
  have hassign : (if d.typing.isInferred then " := " else " = " : Text).feeds = 0 := by
    split <;> decide
  simp +decide [constDecl, Text.feeds_ofString, h.name.feeds, hhint, hassign, h.value.feeds_format]

/-- Of a variant only the value may quote line feeds. -/
theorem feeds_enumVariant {v : EnumVariant} (h : v.IsWellFormed words) :
    (enumVariant v).feeds = Text.feeds (Expr.quotationsOption v.value).flatten := by
  rw [enumVariant, Text.feeds_append, h.name.feeds, feeds_optional_format (by decide) h.value,
    Nat.zero_add]

/-- Of a parameter only the default value may quote line feeds. -/
theorem feeds_functionArg {a : FunctionArg} (h : a.IsWellFormed words) :
    (functionArg a).feeds = Text.feeds (Expr.quotationsOption a.defaultValue).flatten := by
  have hhint : (optional ": " plain a.typeHint).feeds = 0 :=
    feeds_optional_plain (by decide) fun t ht => (h.typeHint t ht).feeds
  rw [functionArg, Text.feeds_append, Text.feeds_append, h.name.feeds, hhint,
    feeds_optional_format (by decide) h.defaultValue, Nat.zero_add]

/-- Of a function's head only the default values may quote line feeds. -/
theorem feeds_functionHead {f : FunctionHead} (h : f.IsWellFormed words) :
    (functionHead f).feeds = Text.feeds f.quotes.flatten := by
  have hmodifier : (optional [] (fun m => FunctionModifier.word m ++ " ") f.modifier).feeds = 0 :=
    feeds_optional rfl fun m _ => by cases m <;> decide
  have hreturn : (optional " -> " plain f.returnType).feeds = 0 :=
    feeds_optional_plain (by decide) fun t ht => (h.returnType t ht).feeds
  have harguments := Text.feeds_flatten_map fun a ha => feeds_functionArg (h.arguments a ha)
  simp +decide [functionHead, FunctionHead.quotes, Text.feeds_ofString, Text.feeds_join, hmodifier,
    h.name.feeds, hreturn, harguments]

/-- The path of a base may hold line feeds, its name may not. -/
theorem feeds_extendsTarget {target : ExtendsTarget} (h : target.IsWellFormed) :
    (extendsTarget target).feeds = Text.feeds target.quotations.flatten := by
  cases target with
  | path body => simp +decide [extendsTarget, ExtendsTarget.quotations, Text.feeds_ofString]
  | name name => exact Text.IsName.feeds h

/-- The parameters of a signal stand on one line. -/
theorem feeds_signalParams {params : List Text} (h : ∀ p ∈ params, p.IsName) :
    (signalParams params).feeds = 0 := by
  have hparams : Text.feeds params.flatten = 0 := by
    refine Text.feeds_eq_zero_iff.mpr fun u hu => ?_
    obtain ⟨p, hp, hu⟩ := List.mem_flatten.mp hu
    exact Text.feeds_eq_zero_iff.mp (h p hp).feeds u hu
  unfold signalParams
  split
  · rfl
  · simp +decide [Text.feeds_ofString, Text.feeds_join, hparams]

end Debug

/-! ### Headings and lines of text -/

/--
The text is indented by two spaces for each level and goes on with the keyword; its line feeds are
those between quotes.
-/
structure Heading.Heads (h : Heading) (t : Text) : Prop where
  indentation : t.indentation = 2 * h.level
  keyword : Text.startsWord h.keyword (t.drop (2 * h.level)) = true
  feeds : t.feeds = Text.feeds h.quotes.flatten

/-- The keyword of a declaration is a word. -/
theorem Decl.isName_keyword (d : Decl) : d.keyword.IsName := by
  cases d <;> simp only [keyword] <;> decide

/-- The keyword of a statement is a word. -/
theorem Stmt.isName_keyword (s : Stmt) : s.keyword.IsName := by
  cases s <;> simp only [keyword] <;> decide

namespace Debug

variable {words : List Text} {level : Nat}

/-- A line that starts with the keyword heads its heading at any level. -/
theorem heads_indented {keyword t : Text} {quotes : List Text} {start? : Option Nat}
    (hkeyword : keyword.IsName) (hword : Text.startsWord keyword t = true)
    (hfeeds : t.feeds = Text.feeds quotes.flatten) :
    Heading.Heads ⟨level, keyword, quotes, start?⟩ (indented level t) := by
  obtain ⟨-, rest, ht, -⟩ := Text.isName_of_identifier? ((Text.startsWord_iff hkeyword).mp hword)
  have hstart : t.StartsWith CodeUnit.isIdentifierStart := by
    rw [ht]
    exact Text.startsName_append hkeyword.1
  -- the text starts with a letter, so its indentation is all that is in front of it
  have hspace : t.Avoids (· == CodeUnit.space) := by
    refine hstart.avoids fun u hu => ?_
    rw [beq_iff_eq.mp hu]
    rfl
  refine ⟨Text.indentation_spaces _ hspace, ?_, ?_⟩
  · rw [indented, Text.drop_spaces]
    exact hword
  · rw [indented, Text.feeds_append, Text.feeds_spaces, Nat.zero_add, hfeeds]

/-- A keyword with an expression behind it. -/
theorem heads_keyword {keyword : Text} {e : Expr} {start? : Option Nat} (hkeyword : keyword.IsName)
    (he : e.Fits words .value) :
    Heading.Heads ⟨level, keyword, e.quotations, start?⟩
      (indented level (keyword ++ " " ++ e.format)) := by
  refine heads_indented hkeyword ?_ ?_
  · rw [List.append_assoc]
    exact Text.startsWord_append_self rfl
  · simp +decide [Text.feeds_ofString, hkeyword.feeds, he.feeds_format]

/-! The cases follow the rendering: a text of its own for each line and branch, then what it governs. -/

mutual

/-- A declaration has a text of its own and those of its body. -/
theorem heads_decl : ∀ {d : Decl}, d.IsWellFormed words → ∀ {level : Nat} {start? : Option Nat},
    List.Forall₂ Heading.Heads (⟨level, d.keyword, d.quotes, start?⟩ :: d.outline level)
      (decl level d)
  | .varDecl d, h => by
    cases h with
    | varDecl h =>
      have hword : Text.startsWord "Var" (varDecl d) = true := by
        simp only [varDecl, List.append_assoc]
        rfl
      exact .cons (heads_indented (Decl.isName_keyword _) hword (feeds_varDecl h)) .nil
  | .constDecl d, h => by
    cases h with
    | constDecl h =>
      have hword : Text.startsWord "Const" (constDecl d) = true := by
        simp only [constDecl, List.append_assoc]
        rfl
      exact .cons (heads_indented (Decl.isName_keyword _) hword (feeds_constDecl h)) .nil
  | .extendsDecl target, h => by
    cases h with
    | extendsDecl h =>
      have hfeeds : Text.feeds ("Extends " ++ extendsTarget target)
          = Text.feeds target.quotations.flatten := by
        simp +decide [Text.feeds_ofString, feeds_extendsTarget h]
      exact .cons (heads_indented (Decl.isName_keyword _) rfl hfeeds) .nil
  | .classNameDecl name, h => by
    cases h with
    | classNameDecl h =>
      have hfeeds : Text.feeds ("ClassName " ++ name) = 0 := by
        simp +decide [Text.feeds_ofString, h.feeds]
      exact .cons (heads_indented (Decl.isName_keyword _) rfl hfeeds) .nil
  | .enumDecl name variants, h => by
    cases h with
    | enumDecl hname _ hvariants =>
      -- a name may stand between the keyword and the brace
      have hword : Text.startsWord "Enum" ("Enum" ++ optional " " plain name ++ " \x7b "
          ++ Text.join ", " (variants.map enumVariant) ++ " \x7d") = true := by
        simp only [List.append_assoc]
        cases name <;> rfl
      have hgiven : (optional " " plain name).feeds = 0 :=
        feeds_optional_plain (by decide) fun t ht => (hname t ht).feeds
      have hfeeds : Text.feeds ("Enum" ++ optional " " plain name ++ " \x7b "
            ++ Text.join ", " (variants.map enumVariant) ++ " \x7d")
          = Text.feeds (variants.flatMap fun v => Expr.quotationsOption v.value).flatten := by
        have hmap := Text.feeds_flatten_map fun v hv => feeds_enumVariant (hvariants v hv)
        simp +decide [Text.feeds_ofString, Text.feeds_join, hgiven, hmap]
      exact .cons (heads_indented (Decl.isName_keyword _) hword hfeeds) .nil
  | .signalDecl name params, h => by
    cases h with
    | signalDecl hname hparams =>
      have hfeeds : Text.feeds ("Signal " ++ name ++ signalParams params) = 0 := by
        simp +decide [Text.feeds_ofString, hname.feeds, feeds_signalParams hparams]
      exact .cons (heads_indented (Decl.isName_keyword _) rfl hfeeds) .nil
  | .functionDecl head body, h => by
    cases h with
    | functionDecl hhead hbody =>
      have hword : Text.startsWord "Func" (functionHead head) = true := by
        simp only [functionHead, List.append_assoc]
        rfl
      exact .cons (heads_indented (Decl.isName_keyword _) hword (feeds_functionHead hhead))
        (heads_block hbody)
  | .classDecl name base body, h => by
    cases h with
    | classDecl hname hbase hbody =>
      have hextends : (optional " extends " plain base).feeds = 0 :=
        feeds_optional_plain (by decide) fun t ht => (hbase t ht).feeds
      have hfeeds : Text.feeds ("Class " ++ name ++ optional " extends " plain base) = 0 := by
        simp +decide [Text.feeds_ofString, hname.feeds, hextends]
      exact .cons (heads_indented (Decl.isName_keyword _) rfl hfeeds) (heads_block hbody)

/-- A statement has a text for each branch, in turn. -/
theorem heads_stmt : ∀ {s : Stmt}, s.IsWellFormed words → ∀ {level : Nat} {start? : Option Nat},
    List.Forall₂ Heading.Heads (⟨level, s.keyword, s.quotes, start?⟩ :: s.outline level)
      (stmt level s)
  -- a conditional has a line for each branch, and its blocks follow at the next level
  | .ifStmt branch elifs none, h => by
    cases h with
    | ifStmt hbranch helifs hlast =>
      rw [Stmt.outline, stmt, elseBranch, List.append_nil]
      exact List.rel_append (heads_condition (Stmt.isName_keyword _) hbranch)
        (heads_conditions (by decide) helifs)
  | .ifStmt branch elifs (some body), h => by
    cases h with
    | ifStmt hbranch helifs hlast =>
      have helse : ∀ level, Heading.Heads ⟨level, "Else", [], none⟩ (indented level "Else") :=
        fun _ => heads_indented (by decide) rfl rfl
      rw [Stmt.outline, stmt, elseBranch]
      exact List.rel_append (List.rel_append (heads_condition (Stmt.isName_keyword _) hbranch)
        (heads_conditions (by decide) helifs)) (.cons (helse _) (heads_block (hlast body rfl)))
  | .whileStmt test, h => by
    cases h with
    | whileStmt h => exact heads_condition (Stmt.isName_keyword _) h
  | .forStmt test, h => by
    cases h with
    | forStmt h => exact heads_condition (Stmt.isName_keyword _) h
  | .matchStmt subject cs, h => by
    cases h with
    | matchStmt hsubject _ hcases =>
      exact .cons (heads_keyword (Stmt.isName_keyword (.matchStmt subject cs)) hsubject)
        (heads_conditions (by decide) hcases)
  | .assignStmt target op value, h => by
    cases h with
    | assignStmt htarget hvalue =>
      have hsign : op.sign.feeds = 0 := by cases op <;> decide
      have hfeeds : Text.feeds ("Assign " ++ target.format ++ " " ++ op.sign ++ " " ++ value.format)
          = Text.feeds (target.quotations ++ value.quotations).flatten := by
        simp +decide [Text.feeds_ofString, hsign, htarget.feeds_format, hvalue.feeds_format]
      have hword : Text.startsWord "Assign"
          ("Assign " ++ target.format ++ " " ++ op.sign ++ " " ++ value.format) = true := by
        simp only [List.append_assoc]
        rfl
      exact .cons (heads_indented (Stmt.isName_keyword _) hword hfeeds) .nil
  | .returnStmt value, h => by
    cases h with
    | returnStmt h =>
      have hvalue : (optional " " Expr.format value).feeds
          = Text.feeds (Expr.quotationsOption value).flatten := feeds_optional_format (by decide) h
      have hfeeds : Text.feeds ("Return" ++ optional " " Expr.format value)
          = Text.feeds (Expr.quotationsOption value).flatten := by
        simp +decide [Text.feeds_ofString, hvalue]
      have hword : Text.startsWord "Return" ("Return" ++ optional " " Expr.format value) = true := by
        cases value <;> rfl
      exact .cons (heads_indented (Stmt.isName_keyword _) hword hfeeds) .nil
  | .passStmt, _ => .cons (heads_indented (Stmt.isName_keyword _) rfl rfl) .nil

/-- A branch has a text of its own and those of its body. -/
theorem heads_condition : ∀ {c : Condition} {keyword : Text}, keyword.IsName →
    c.IsWellFormed words → ∀ {level : Nat} {start? : Option Nat},
    List.Forall₂ Heading.Heads (⟨level, keyword, c.expr.quotations, start?⟩ :: c.outline level)
      (condition keyword level c)
  | .mk e body, keyword, hkeyword, h => by
    cases h with
    | mk he hbody =>
      rw [Condition.outline, condition]
      exact .cons (heads_keyword hkeyword he) (heads_block hbody)

/-- The branches have their texts in turn. -/
theorem heads_conditions : ∀ {cs : List Condition} {keyword : Text}, keyword.IsName →
    (∀ c ∈ cs, c.IsWellFormed words) → ∀ {level : Nat},
    List.Forall₂ Heading.Heads (Condition.outlineAll keyword level cs) (conditions keyword level cs)
  | [], _, _, _ => .nil
  | c :: rest, keyword, hkeyword, h => by
    rw [List.forall_mem_cons] at h
    rw [Condition.outlineAll, conditions]
    exact List.rel_append (heads_condition hkeyword h.1) (heads_conditions hkeyword h.2)

/-- A line has a text of its own and those of what it governs. -/
theorem heads_line : ∀ {l : Line}, l.IsWellFormed words → ∀ {level : Nat},
    List.Forall₂ Heading.Heads (l.heading level :: l.outline level) (line level l)
  | .decl d span, h => by
    cases h with
    | decl h => exact heads_decl h
  | .stmt s span, h => by
    cases h with
    | stmt h => exact heads_stmt h
  | .expr e span, h => by
    cases h with
    | expr h => exact .cons (heads_keyword (by decide : Text.IsName "Expr") h) .nil
  -- a comment stands on one line of the source, so it holds no line feed
  | .comment t span, h => by
    cases h with
    | comment h =>
      have hfeeds : Text.feeds ("Comment " ++ t) = 0 := by
        simp +decide [Text.feeds_ofString, h.feeds]
      exact .cons (heads_indented (by decide : Text.IsName "Comment") rfl hfeeds) .nil

/-- A block is rendered as a line of text for each heading of its outline, in turn. -/
theorem heads_block : ∀ {lines : List Line}, (∀ l ∈ lines, l.IsWellFormed words) →
    ∀ {level : Nat}, List.Forall₂ Heading.Heads (Line.outlineAll level lines) (block level lines)
  | [], _ => .nil
  | l :: rest, h => by
    rw [List.forall_mem_cons] at h
    rw [Line.outlineAll, block]
    exact List.rel_append (heads_line h.1) (heads_block h.2)

end

/-- How a text shows an outline. -/
structure Shows (outline : List Heading) (t : Text) : Prop where
  /-- There is a text for each heading, in turn, and each starts a line. -/
  entries : ∃ entries, t = Text.unlines entries ∧ List.Forall₂ Heading.Heads outline entries
  /-- There is one line for each heading, and one more for each line feed between quotes. -/
  length_lines : (Text.lines t).length
    = outline.length + Text.feeds (outline.flatMap Heading.quotes).flatten
  /-- Where nothing between quotes spans lines, the lines are headed in turn. -/
  heads_lines : (∀ h ∈ outline, ∀ q ∈ h.quotes, CodeUnit.lineFeed ∉ q) →
    List.Forall₂ Heading.Heads outline (Text.lines t)

section Shown

variable {outline : List Heading} {entries : List Text}

/-- The line feeds of all the texts are those of all the quotations. -/
theorem feeds_entries (h : List.Forall₂ Heading.Heads outline entries) :
    Text.feeds entries.flatten = Text.feeds (outline.flatMap Heading.quotes).flatten := by
  induction h with
  | nil => rfl
  | cons hhead _ ih =>
    rw [List.flatten_cons, List.flatMap_cons, List.flatten_append, Text.feeds_append,
      Text.feeds_append, hhead.feeds, ih]

/-- Without line feeds between quotes no text has one. -/
theorem entries_ne_lineFeed (h : List.Forall₂ Heading.Heads outline entries)
    (hquotes : ∀ h ∈ outline, ∀ q ∈ h.quotes, CodeUnit.lineFeed ∉ q) :
    ∀ t ∈ entries, ∀ u ∈ t, u ≠ CodeUnit.lineFeed := by
  induction h with
  | nil => simp
  | @cons heading t outline entries hhead _ ih =>
    obtain ⟨hfirst, hrest⟩ := List.forall_mem_cons.mp hquotes
    refine List.forall_mem_cons.mpr ⟨Text.feeds_eq_zero_iff.mp ?_, ih hrest⟩
    rw [hhead.feeds, Text.feeds_eq_zero_iff]
    intro u hu hfeed
    obtain ⟨q, hq, hmem⟩ := List.mem_flatten.mp hu
    exact hfirst q hq (hfeed ▸ hmem)

/-- Texts that are headed in turn show the outline when they are joined. -/
theorem shows_unlines (h : List.Forall₂ Heading.Heads outline entries) (hne : entries ≠ []) :
    Shows outline (Text.unlines entries) where
  entries := ⟨entries, rfl, h⟩
  length_lines := by
    have hlength := h.length_eq
    have hfeeds := feeds_entries h
    have hunlines := Text.feeds_unlines hne
    rw [Text.length_lines]
    omega
  heads_lines hquotes := by rwa [Text.lines_unlines hne (entries_ne_lineFeed h hquotes)]

end Shown

end Debug

namespace Script

variable {source : Text} {depth : Option Int} {block : Block}

/--
The debug rendering of a script shows its outline, and the lines of the outline are in the order in
which they start in the text.
-/
theorem shows_outline_of_parse (h : parse source depth = .ok block) (hne : block ≠ []) :
    Debug.Shows (block.outline 0) (Debug.render block) ∧
      (Heading.starts (block.outline 0)).Pairwise (· < ·) := by
  obtain ⟨-, hwell⟩ := exists_found_of_parse h fun room => Rule.areSound room .file _
  have hfits := fits_of_parse h
  have hheads : List.Forall₂ Heading.Heads (block.outline 0) (Debug.block 0 block) :=
    Debug.heads_block hwell
  have hlines : Debug.block 0 block ≠ [] := by
    obtain ⟨l, rest, rfl⟩ := List.exists_cons_of_ne_nil hne
    rintro hnil
    rw [hnil] at hheads
    cases hheads
  exact ⟨Debug.shows_unlines hheads hlines, (hfits.isNested.rises 0 hfits.inOrder).sorted⟩

/-- A string that spans two lines takes two lines of the rendering; all else takes one line each. -/
theorem shows_outline_of_parse_string : ∃ block,
    parse "if a:\n x = \"p\nq\"\nelif b:\n d\nelse:\n match c:\n  1:\n   return" none = .ok block ∧
    block ≠ [] ∧
    Debug.render block =
      "If a\n  Assign x = \"p\nq\"\nElif b\n  Expr d\nElse\n  Match c\n    Case 1\n      Return" ∧
    (block.outline 0).length = 8 ∧ (Text.lines (Debug.render block)).length = 9 ∧
    Debug.Shows (block.outline 0) (Debug.render block) ∧
    (Heading.starts (block.outline 0)).Pairwise (· < ·) := by
  have hread : ((parse "if a:\n x = \"p\nq\"\nelif b:\n d\nelse:\n match c:\n  1:\n   return"
      none).toOption.any fun block => decide (block.isEmpty = false ∧
        Debug.render block =
          "If a\n  Assign x = \"p\nq\"\nElif b\n  Expr d\nElse\n  Match c\n    Case 1\n      Return" ∧
        (block.outline 0).length = 8 ∧ (Text.lines (Debug.render block)).length = 9)) = true := by
    decide +kernel
  cases hparse : parse "if a:\n x = \"p\nq\"\nelif b:\n d\nelse:\n match c:\n  1:\n   return" none with
  | error failure =>
    rw [hparse] at hread
    cases hread
  | ok block =>
    rw [hparse] at hread
    obtain ⟨hempty, hrender, hheadings, hlines⟩ := of_decide_eq_true hread
    have hne : block ≠ [] := List.isEmpty_eq_false_iff.mp hempty
    exact ⟨block, rfl, hne, hrender, hheadings, hlines, shows_outline_of_parse hparse hne⟩

end Script

end GDScript
