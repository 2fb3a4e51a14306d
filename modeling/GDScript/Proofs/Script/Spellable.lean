import GDScript.Proofs.Between.Spaced
import GDScript.Proofs.Expression.WellFormed
import GDScript.Proofs.Script.Written
import GDScript.Proofs.WellFormed.Tree

/-!
# Every script can be written

Which blocks are scripts (`Block.IsScript`), and that every one of them is spelled by some text
(`Block.IsScript.spellable`): each line stands on its own, one space deeper than the header that
governs it, and a single space stands wherever a gap is needed.

How much room a text needs is left open: `Spellable` says that some text satisfies a relation
whenever there is room enough, so that the parts of a piece may be spelled one by one.
-/

namespace GDScript

open Text (IsGap IsName IsChain IsBreak IsIdle IsIdleLine spaces)

/-! ### Scripts -/

/--
A script: well formed, with a line of code in every block that a line governs. What is assigned to
is an expression as any other, so none of its names is a word of the grammar.
-/
structure Block.IsScript (block : Block) : Prop where
  isWellFormed : block.IsWellFormed Script.words
  hasCode : ∀ inner : Block, inner.Within block → ∃ l ∈ inner, l.isComment = false
  target : ∀ inner : Block, inner = block ∨ inner.Within block → ∀ target op value span,
    Line.stmt (.assignStmt target op value) span ∈ inner → target.Fits Script.words .value

/-! ### The blocks in a line -/

/-- The block of a branch is smaller than the branch. -/
theorem Condition.sizeOf_block_lt (c : Condition) : sizeOf c.block < sizeOf c := by
  cases c with
  | mk e block =>
    rw [Condition.mk.sizeOf_spec, Condition.block]
    omega

theorem Condition.sizeOf_lt_of_mem_map {cs : List Condition} {body : Block}
    (h : body ∈ cs.map Condition.block) : sizeOf body < sizeOf cs := by
  obtain ⟨c, hc, rfl⟩ := List.mem_map.mp h
  exact Nat.lt_trans c.sizeOf_block_lt (List.sizeOf_lt_of_mem hc)

/-- A block in a declaration is smaller than the declaration. -/
theorem Decl.sizeOf_lt_of_mem_bodies {d : Decl} {body : Block} (h : body ∈ d.bodies) :
    sizeOf body < sizeOf d := by
  cases d with
  | functionDecl head block =>
    rw [List.mem_singleton.mp h, Decl.functionDecl.sizeOf_spec]
    omega
  | classDecl name base block =>
    rw [List.mem_singleton.mp h, Decl.classDecl.sizeOf_spec]
    omega
  | _ => exact absurd h List.not_mem_nil

/-- A block in a statement is smaller than the statement. -/
theorem Stmt.sizeOf_lt_of_mem_bodies {st : Stmt} {body : Block} (h : body ∈ st.bodies) :
    sizeOf body < sizeOf st := by
  cases st with
  | ifStmt branch elifs last =>
    rw [Stmt.ifStmt.sizeOf_spec]
    -- the blocks of the first branch, of the further ones, and the last one
    rcases List.mem_cons.mp h with rfl | h
    · have hlt := branch.sizeOf_block_lt
      omega
    rcases List.mem_append.mp h with h | h
    · have hlt := Condition.sizeOf_lt_of_mem_map h
      omega
    · obtain rfl := Option.mem_toList.mp h
      rw [Option.some.sizeOf_spec]
      omega
  | whileStmt test =>
    rw [List.mem_singleton.mp h, Stmt.whileStmt.sizeOf_spec]
    exact Nat.lt_add_left 1 test.sizeOf_block_lt
  | forStmt test =>
    rw [List.mem_singleton.mp h, Stmt.forStmt.sizeOf_spec]
    exact Nat.lt_add_left 1 test.sizeOf_block_lt
  | matchStmt subject cases =>
    have hlt := Condition.sizeOf_lt_of_mem_map h
    rw [Stmt.matchStmt.sizeOf_spec]
    omega
  | _ => exact absurd h List.not_mem_nil

/-- A block in a line is smaller than the line. -/
theorem Line.sizeOf_lt_of_mem_bodies {l : Line} {body : Block} (h : body ∈ l.bodies) :
    sizeOf body < sizeOf l := by
  cases l with
  | decl d span =>
    have hlt := Decl.sizeOf_lt_of_mem_bodies h
    rw [Line.decl.sizeOf_spec]
    omega
  | stmt st span =>
    have hlt := Stmt.sizeOf_lt_of_mem_bodies h
    rw [Line.stmt.sizeOf_spec]
    omega
  | _ => exact absurd h List.not_mem_nil

/-- What holds of a block as soon as it holds of the blocks in its lines holds of every block. -/
theorem Block.induction {P : Block → Prop}
    (h : ∀ block : Block, (∀ l ∈ block, ∀ body ∈ l.bodies, P body) → P block) (block : Block) :
    P block := by
  induction hsize : sizeOf block using Nat.strongRecOn generalizing block with
  | ind size ih =>
    subst hsize
    refine h block fun l hl body hbody => ih (sizeOf body) ?_ body rfl
    exact Nat.lt_trans (Line.sizeOf_lt_of_mem_bodies hbody) (List.sizeOf_lt_of_mem hl)

theorem Condition.IsWellFormed.block {words : List Text} {c : Condition}
    (h : c.IsWellFormed words) : c.block.IsWellFormed words := by
  cases h with
  | mk _ hbody => exact hbody

/-- The blocks in a well-formed line are well formed. -/
theorem Line.IsWellFormed.body {words : List Text} {l : Line} {body : Block}
    (h : Line.IsWellFormed words l) (hbody : body ∈ l.bodies) : body.IsWellFormed words := by
  -- several kinds of lines have a list of branches
  have hbranches : ∀ {cs : List Condition}, (∀ c ∈ cs, c.IsWellFormed words) →
      body ∈ cs.map Condition.block → body.IsWellFormed words := by
    intro cs hcs hmem
    obtain ⟨c, hc, rfl⟩ := List.mem_map.mp hmem
    exact (hcs c hc).block
  cases h with
  | decl h =>
    cases h with
    | functionDecl _ h | classDecl _ _ h => exact List.mem_singleton.mp hbody ▸ h
    | _ => exact absurd hbody List.not_mem_nil
  | stmt h =>
    cases h with
    | ifStmt h hcs hlast =>
      rcases List.mem_cons.mp hbody with rfl | hbody
      · exact h.block
      · rcases List.mem_append.mp hbody with hbody | hbody
        · exact hbranches hcs hbody
        · exact hlast body (Option.mem_toList.mp hbody)
    | whileStmt h | forStmt h => exact List.mem_singleton.mp hbody ▸ h.block
    | matchStmt _ _ hcs => exact hbranches hcs hbody
    | _ => exact absurd hbody List.not_mem_nil
  | _ => exact absurd hbody List.not_mem_nil

/-- The blocks in the lines of a script are scripts. -/
theorem Block.IsScript.body {block body : Block} {l : Line} (h : block.IsScript) (hl : l ∈ block)
    (hbody : body ∈ l.bodies) : body.IsScript where
  isWellFormed := (h.isWellFormed l hl).body hbody
  hasCode inner hinner := h.hasCode inner (.deeper hl hbody hinner)
  target inner hinner := by
    refine h.target inner (.inr ?_)
    rcases hinner with rfl | hinner
    · exact .body hl hbody
    · exact .deeper hl hbody hinner

/-! ### Enough room -/

/-- Some text satisfies the relation, whenever there is room enough. -/
def Spellable (P : Nat → Text → Prop) : Prop := ∃ s least, ∀ room, least ≤ room → P room s

namespace Spellable

variable {P Q R : Nat → Text → Prop} {k : Nat}

/-- One text that satisfies the relation, with so much room at least. -/
theorem text {s : Text} (k : Nat) (h : ∀ room, P (room + k) s) : Spellable P := by
  refine ⟨s, k, fun room hroom => ?_⟩
  obtain ⟨less, rfl⟩ := Nat.exists_eq_add_of_le' hroom
  exact h less

/-- A text that is made of one that is spelled may need more room. -/
theorem map (h : Spellable P) {f : Text → Text} (k : Nat)
    (hf : ∀ room s, P room s → Q (room + k) (f s)) : Spellable Q := by
  obtain ⟨s, least, hs⟩ := h
  refine ⟨f s, least + k, fun room hroom => ?_⟩
  obtain ⟨less, rfl⟩ := Nat.exists_eq_add_of_le' (Nat.le_trans (Nat.le_add_left k least) hroom)
  exact hf less s (hs less (Nat.le_of_add_le_add_right hroom))

/-- A text that is made of two needs the room that either of them needs. -/
theorem map₂ (h : Spellable P) (h' : Spellable Q) {f : Text → Text → Text} (k : Nat)
    (hf : ∀ room s t, P room s → Q room t → R (room + k) (f s t)) : Spellable R := by
  obtain ⟨s, least, hs⟩ := h
  obtain ⟨t, least', ht⟩ := h'
  refine map (P := fun room _ => P room s ∧ Q room t) ⟨[], max least least', fun room hroom => ?_⟩
    (f := fun _ => f s t) k fun room _ h => hf room s t h.1 h.2
  exact ⟨hs room (Nat.le_trans (Nat.le_max_left _ _) hroom),
    ht room (Nat.le_trans (Nat.le_max_right _ _) hroom)⟩

/-- More room does no harm. -/
theorem more (h : Spellable P) (k : Nat) : Spellable fun room => P (room + k) := by
  obtain ⟨s, least, hs⟩ := h
  exact ⟨s, least, fun room hroom => hs _ (Nat.le_trans hroom (Nat.le_add_right room k))⟩

end Spellable

/-- Every well-formed expression is spelled at every level, within brackets and outside of them. -/
theorem Expr.Fits.spellable {e : Expr} (h : e.Fits Script.words .value) (b : Bool) {level : Nat}
    (hlevel : level ≤ 6) : Spellable fun room s => e.Written room b level s := by
  obtain ⟨s, least, hs⟩ := h.exists_written b hlevel
  exact ⟨s, least, fun room hroom => hs.mono hroom⟩

/-! ### Gaps and lists -/

/-- A single space. -/
abbrev Text.gap : Text := [CodeUnit.space]

theorem Text.isGap_gap : IsGap false gap := isGap_space false

theorem Text.isBreak_lineFeed : IsBreak [CodeUnit.lineFeed] := .inl rfl

namespace Text

variable {α : Type} {P : Nat → α → Text → Prop} {xs : List α}

/-- A list is spelled with its commas, as soon as its items are. -/
theorem spellable_separated {b : Bool} (hne : xs ≠ []) (h : ∀ x ∈ xs, Spellable fun room => P room x) :
    Spellable fun room => Separated (P room) b xs := by
  have hnil := isGap_nil true
  induction xs with
  | nil => exact absurd rfl hne
  | cons x xs ih =>
    have hx := h x List.mem_cons_self
    cases xs with
    | nil => exact hx.map 0 fun _ _ hs => .last hs hnil
    | cons y ys =>
      have hmore := ih (List.cons_ne_nil y ys) fun z hz => h z (List.mem_cons_of_mem x hz)
      exact hx.map₂ hmore 0 fun _ _ _ hs ht => .cons hs hnil hnil ht

/-- So is a list between parentheses, which may be empty. -/
theorem spellable_parenthesized (h : ∀ x ∈ xs, Spellable fun room => P room x) :
    Spellable fun room => Parenthesized (P room) xs := by
  have hnil := isGap_nil true
  by_cases hne : xs = []
  · rw [hne]
    exact .text 0 fun _ => .nil hnil
  · exact (spellable_separated hne h).map 0 fun _ _ hs => .items hnil hs

/-- The word of a modifier stands in front, with a space. -/
theorem exists_modified (word : α → Text) (m : Option α) : ∃ s, Modified word m s := by
  cases m with
  | none => exact ⟨_, .none⟩
  | some m => exact ⟨_, .some isGap_gap (List.cons_ne_nil _ _)⟩

end Text

open Text (gap isGap_gap isBreak_lineFeed)

/-! ### Declarations and statements on one line -/

/-- A type and a value are spelled with no more gaps than needed. -/
theorem Typing.spellable {typing : Typing} {value : Option Expr} (htyping : typing.IsWellFormed)
    (hvalue : ∀ e ∈ value, e.Fits Script.words .value)
    (hinferred : typing.isInferred = true → value.isSome = true) :
    Spellable fun room => typing.Written room value := by
  have hnil := Text.isGap_nil false
  have hexpr : ∀ e ∈ value, Spellable fun room s => e.Written room false 0 s := fun e he =>
    (hvalue e he).spellable false (Nat.zero_le 6)
  cases typing with
  | inferred =>
    -- an inferred type needs the value it is inferred from
    obtain ⟨e, rfl⟩ := Option.isSome_iff_exists.mp (hinferred rfl)
    exact (hexpr e rfl).map 1 fun _ _ he => .inferred hnil hnil he
  | declared hint =>
    cases hint with
    | none =>
      cases value with
      | none => exact .text 0 fun _ => .missing
      | some e => exact (hexpr e rfl).map 1 fun _ _ he => .value hnil hnil he
    | some hint =>
      have hhint := htyping hint rfl
      cases value with
      | none => exact .text 0 fun _ => .hint hnil hnil hhint
      | some e => exact (hexpr e rfl).map 1 fun _ _ he => .hintValue hnil hnil hhint hnil hnil he

theorem EnumVariant.IsWellFormed.spellable {v : EnumVariant} (h : v.IsWellFormed Script.words) :
    Spellable fun room => v.Written room := by
  obtain ⟨name', value⟩ := v
  have hnil := Text.isGap_nil true
  cases value with
  | none => exact .text 1 fun _ => .name h.name
  | some e =>
    exact ((h.value e rfl).spellable true (Nat.zero_le 6)).map 2 fun _ _ he =>
      .value h.name hnil hnil he

theorem FunctionArg.IsWellFormed.spellable {a : FunctionArg} (h : a.IsWellFormed Script.words) :
    Spellable fun room => a.Written room := by
  obtain ⟨name', hint, value⟩ := a
  have hnil := Text.isGap_nil
  have hexpr : ∀ e ∈ value, Spellable fun room s => e.Written room true 0 s := fun e he =>
    (h.defaultValue e he).spellable true (Nat.zero_le 6)
  -- each form of a parameter is spelled with as few gaps as it can have
  cases hint with
  | none =>
    cases value with
    | none => exact .text 1 fun _ => .name h.name
    | some e => exact (hexpr e rfl).map 2 fun _ _ he => .value h.name (hnil false) (hnil false) he
  | some hint =>
    have hhint := h.typeHint hint rfl
    cases value with
    | none => exact .text 1 fun _ => .hint h.name (hnil true) (hnil true) hhint
    | some e =>
      exact (hexpr e rfl).map 2 fun _ _ he =>
        .hintValue h.name (hnil true) (hnil true) hhint (hnil false) (hnil false) he

/-- The setter and the getter are spelled behind the value, if there are any. -/
theorem VarDecl.IsWellFormed.spellable {d : VarDecl} (h : d.IsWellFormed Script.words) :
    Spellable fun room => (Decl.varDecl d).Written room := by
  obtain ⟨modifier, name', typing, value, setter, getter⟩ := d
  have hne : gap ≠ [] := List.cons_ne_nil _ _
  have htyping : Spellable fun room => typing.Written room value :=
    Typing.spellable h.typing h.value fun hinferred => (h.inferred hinferred).2
  obtain ⟨m, hm⟩ := Text.exists_modified VarModifier.word modifier
  -- without accessors the word `setget` is missing as well, so that case stands apart
  have hboth : ∀ {t : Text}, Accessors setter getter t → Spellable fun room =>
      (Decl.varDecl ⟨modifier, name', typing, value, setter, getter⟩).Written room := fun ht =>
    htyping.map 0 fun _ _ hs => .varSetget hm isGap_gap hne h.name hs isGap_gap hne ht
  have hnil := Text.isGap_nil false
  cases setter with
  | none =>
    cases getter with
    | none => exact htyping.map 0 fun _ _ hs => .var hm isGap_gap hne h.name hs
    | some getter => exact hboth (.getter hnil hnil (h.getter getter rfl))
  | some setter =>
    have hsetter := h.setter setter rfl
    cases getter with
    | none => exact hboth (.setter isGap_gap hne hsetter)
    | some getter => exact hboth (.both isGap_gap hne hsetter hnil hnil (h.getter getter rfl))

theorem ConstDecl.IsWellFormed.spellable {d : ConstDecl} (h : d.IsWellFormed Script.words) :
    Spellable fun room => (Decl.constDecl d).Written room := by
  obtain ⟨name', typing, e⟩ := d
  have htyping : Spellable fun room => typing.Written room (some e) :=
    Typing.spellable h.typing (fun e' he => Option.some.inj he ▸ h.value) fun _ => rfl
  exact htyping.map 0 fun _ _ hs => .const isGap_gap (List.cons_ne_nil _ _) h.name hs

/-! ### Pieces -/

theorem Condition.IsWellFormed.fits {words : List Text} {c : Condition} (h : c.IsWellFormed words) :
    c.expr.Fits words .value := by
  cases h with
  | mk he => exact he

namespace Piece

variable {w : Nat} {c : Condition} {cs : List Condition} {block : Block}

/-- Some text spells the piece. -/
abbrev IsSpellable (p : Piece) : Prop := Spellable fun room => p.Written (fun _ => True) room

theorem avoids_gap (s : Text) : (gap ++ s).Avoids CodeUnit.isIdentifierChar := rfl

theorem isIdleLine_nil {ok : Nat → Prop} : IsIdleLine ok [] := .blank (Text.isGap_nil false)

/-- A line without a block ends with its item. -/
theorem isSpellable_item {l : Line} (h : Spellable fun room => l.Written room) :
    (items w [l]).IsSpellable :=
  h.map 0 fun _ _ hs => .item hs isIdleLine_nil

/-- A block stands one space deeper than the header that governs it. -/
theorem isSpellable_body (hcode : ∃ l ∈ block, l.isComment = false)
    (h : (rows (w + 1) block).IsSpellable) : (body w block).IsSpellable :=
  h.map 2 fun _ _ hs =>
    .body trivial (Nat.lt_succ_self w) isIdleLine_nil isBreak_lineFeed hs hcode

/-- A branch is its test and its block. -/
theorem isSpellable_branch (he : c.expr.Fits Script.words .value)
    (h : (body w c.block).IsSpellable) : (branch w c).IsSpellable := by
  obtain ⟨e, block⟩ := c
  exact (he.spellable false (Nat.zero_le 6)).map₂ (h.more 1) 1 fun _ _ _ he hs =>
    .branch he (Text.isGap_nil false) hs

/-- Further branches start on lines of their own. -/
theorem isSpellable_elifs (h : ∀ c ∈ cs, (branch w c).IsSpellable) : (elifs w cs).IsSpellable := by
  induction cs with
  | nil => exact .text 0 fun _ => .noElif
  | cons c cs ih =>
    have hmore := ih fun c' hc' => h c' (List.mem_cons_of_mem c hc')
    exact (h c List.mem_cons_self).map₂ (hmore.more 2) 2 fun _ s _ hs ht =>
      .elif isBreak_lineFeed .nil isGap_gap (avoids_gap s) hs ht

/-- So does the last block of a choice. -/
theorem isSpellable_otherwise {last : Option Block} (h : ∀ block ∈ last, (body w block).IsSpellable) :
    (otherwise w last).IsSpellable := by
  cases last with
  | none => exact .text 0 fun _ => .noElse
  | some block =>
    exact (h block rfl).map 1 fun _ _ hs =>
      .else isBreak_lineFeed .nil (Text.isGap_nil false) hs

/-- The cases of a match, of which there is one at least. -/
theorem isSpellable_cases (hne : cs ≠ []) (h : ∀ c ∈ cs, (branch w c).IsSpellable) :
    (cases w cs).IsSpellable := by
  induction cs with
  | nil => exact absurd rfl hne
  | cons c cs ih =>
    have hc := h c List.mem_cons_self
    by_cases hmore : cs = []
    · rw [hmore]
      exact hc.map 2 fun _ _ hs => .lastCase .nil hs
    · have hcs := ih hmore fun c' hc' => h c' (List.mem_cons_of_mem c hc')
      exact hc.map₂ (hcs.more 2) 2 fun _ _ _ hs ht => .cases .nil hs isBreak_lineFeed ht

theorem isSpellable_if {last : Option Block} (h : (branch w c).IsSpellable)
    (hcs : ∀ c ∈ cs, (branch w c).IsSpellable) (hlast : ∀ block ∈ last, (body w block).IsSpellable) :
    (stmt w (.ifStmt c cs last)).IsSpellable := by
  -- the branches and the last block are spelled as one text, so that two texts are put together
  have hmore : Spellable fun room s => ∃ t u, s = t ++ u ∧
      Written (fun _ => True) (room + 1) (elifs w cs) t ∧
      Written (fun _ => True) (room + 1) (otherwise w last) u :=
    ((isSpellable_elifs hcs).more 1).map₂ ((isSpellable_otherwise hlast).more 1) 0
      fun _ t u ht hu => ⟨t, u, rfl, ht, hu⟩
  refine h.map₂ hmore 1 (f := fun s t => "if" ++ (gap ++ (s ++ t))) ?_
  rintro room s _ hs ⟨t, u, rfl, ht, hu⟩
  exact .if isGap_gap (avoids_gap s) hs ht hu

theorem isSpellable_match {subject : Expr} (he : subject.Fits Script.words .value) (hne : cs ≠ [])
    (h : ∀ c ∈ cs, (branch (w + 1) c).IsSpellable) :
    (stmt w (.matchStmt subject cs)).IsSpellable :=
  (he.spellable false (Nat.zero_le 6)).map₂ ((isSpellable_cases hne h).more 1) 1 fun _ s _ he hs =>
    .match isGap_gap (avoids_gap s) he (Text.isGap_nil false) isIdleLine_nil isBreak_lineFeed
      (Nat.lt_succ_self w) hs

/-- A function is its head and its block. -/
theorem isSpellable_function {head : FunctionHead} (hhead : head.IsWellFormed Script.words)
    (h : (body w block).IsSpellable) : (decl w (.functionDecl head block)).IsSpellable := by
  obtain ⟨modifier, name', arguments, returnType⟩ := head
  have hnil := Text.isGap_nil false
  have hne : gap ≠ [] := List.cons_ne_nil _ _
  obtain ⟨m, hm⟩ := Text.exists_modified FunctionModifier.word modifier
  have harguments : Spellable fun room => Text.Parenthesized (FunctionArg.Written room) arguments :=
    Text.spellable_parenthesized fun a ha => (hhead.arguments a ha).spellable
  cases returnType with
  | none =>
    exact harguments.map₂ h 0 fun _ _ _ hs ht =>
      .function hm isGap_gap hne hhead.name hnil hs hnil ht
  | some hint =>
    exact harguments.map₂ h 0 fun _ _ _ hs ht =>
      .functionHint hm isGap_gap hne hhead.name hnil hs hnil hnil (hhead.returnType hint rfl) hnil ht

theorem isSpellable_class {name' : Text} {base : Option Text} (hname : IsName name')
    (hbase : ∀ b ∈ base, IsChain CodeUnit.dot b) (h : (body w block).IsSpellable) :
    (decl w (.classDecl name' base block)).IsSpellable := by
  have hnil := Text.isGap_nil false
  have hne : gap ≠ [] := List.cons_ne_nil _ _
  cases base with
  | none => exact h.map 0 fun _ _ hs => .class isGap_gap hne hname hnil hs
  | some base =>
    exact h.map 0 fun _ _ hs =>
      .classExtends isGap_gap hne hname isGap_gap hne isGap_gap hne (hbase base rfl) hnil hs

/-! ### Lines -/

/-- A declaration is spelled as soon as the blocks in it are. -/
theorem isSpellable_declItem {d : Decl} {span : Span} (h : Decl.IsWellFormed Script.words d)
    (hbodies : ∀ block ∈ d.bodies, (body w block).IsSpellable) :
    (items w [.decl d span]).IsSpellable := by
  have hnil := Text.isGap_nil false
  have hne : gap ≠ [] := List.cons_ne_nil _ _
  -- a declaration is either an item of one line, or it governs a block and ends the line
  have hsimple : (Spellable fun room => d.Written room) → (items w [.decl d span]).IsSpellable :=
    fun hd => isSpellable_item (hd.map 2 fun _ _ hs => .decl hs)
  have hgoverning : (decl w d).IsSpellable → (items w [.decl d span]).IsSpellable := fun hd =>
    hd.map 2 fun _ _ hs => .declItem hs
  cases h with
  | varDecl h => exact hsimple h.spellable
  | constDecl h => exact hsimple h.spellable
  | @extendsDecl target h =>
    cases target with
    | path path =>
      obtain ⟨quote, hquote⟩ := h
      have hliteral : StringLiteral.IsValid ⟨path, quote⟩ := hquote
      exact hsimple (.text 0 fun _ => .extendsPath hnil hliteral)
    | name given => exact hsimple (.text 0 fun _ => .extendsName isGap_gap hne h)
  | classNameDecl h => exact hsimple (.text 0 fun _ => .className isGap_gap hne h)
  | @enumDecl given variants hname hvariants h =>
    have hlist : Spellable fun room => Text.Separated (EnumVariant.Written room) true variants :=
      Text.spellable_separated hvariants fun v hv => (h v hv).spellable
    cases given with
    | none => exact hsimple (hlist.map 0 fun _ _ hs => .enum hnil (Text.isGap_nil true) hs)
    | some given =>
      exact hsimple (hlist.map 0 fun _ _ hs =>
        .enumName isGap_gap hne (hname given rfl) hnil (Text.isGap_nil true) hs)
  | @signalDecl name' params hname h =>
    have hlist : Spellable fun _ => Text.Parenthesized (fun param s => IsName param ∧ s = param) params :=
      Text.spellable_parenthesized (P := fun _ param s => IsName param ∧ s = param) fun param hparam =>
        .text 0 fun _ => ⟨h param hparam, rfl⟩
    exact hsimple (hlist.map 0 fun _ _ hs => .signalParams isGap_gap hne hname hnil hs)
  | functionDecl hhead _ =>
    exact hgoverning (isSpellable_function hhead (hbodies _ List.mem_cons_self))
  | classDecl hname hbase _ =>
    exact hgoverning (isSpellable_class hname hbase (hbodies _ List.mem_cons_self))

/-- A statement is spelled as soon as the blocks in it are. -/
theorem isSpellable_stmtItem {st : Stmt} {span : Span} (h : Stmt.IsWellFormed Script.words st)
    (htarget : ∀ target op value, st = .assignStmt target op value → target.Fits Script.words .value)
    (hbodies : ∀ w, ∀ block ∈ st.bodies, (body w block).IsSpellable) :
    (items w [.stmt st span]).IsSpellable := by
  have hnil := Text.isGap_nil false
  -- a statement without a block is an item of its line; one with a block governs the lines below
  have hsimple : (Spellable fun room => st.Written room) → (items w [.stmt st span]).IsSpellable :=
    fun hst => isSpellable_item (hst.map 2 fun _ _ hs => .stmt hs)
  have hgoverning : (stmt w st).IsSpellable → (items w [.stmt st span]).IsSpellable := fun hst =>
    hst.map 2 fun _ _ hs => .stmtItem hs
  have hbranch : ∀ w, ∀ c : Condition, Condition.IsWellFormed Script.words c → c.block ∈ st.bodies →
      (branch w c).IsSpellable := fun w c hc hmem => isSpellable_branch hc.fits (hbodies w _ hmem)
  cases h with
  | ifStmt hc hcs hlast =>
    refine hgoverning (isSpellable_if (hbranch w _ hc List.mem_cons_self) (fun c' hc' => ?_)
      fun block hblock => hbodies w block ?_)
    · exact hbranch w c' (hcs c' hc') (List.mem_cons_of_mem _
        (List.mem_append_left _ (List.mem_map_of_mem hc')))
    · exact List.mem_cons_of_mem _ (List.mem_append_right _ (Option.mem_toList.mpr hblock))
  | whileStmt hc =>
    exact hgoverning ((hbranch w _ hc List.mem_cons_self).map 1 fun _ s hs =>
      .while isGap_gap (avoids_gap s) hs)
  | forStmt hc =>
    exact hgoverning ((hbranch w _ hc List.mem_cons_self).map 1 fun _ s hs =>
      .for isGap_gap (avoids_gap s) hs)
  | matchStmt hsubject hne hcs =>
    exact hgoverning (isSpellable_match hsubject hne fun c' hc' =>
      hbranch (w + 1) c' (hcs c' hc') (List.mem_map_of_mem hc'))
  | @assignStmt target op value _ hvalue =>
    have hfits := htarget target op value rfl
    exact hsimple ((hfits.spellable false (show 4 ≤ 6 by omega)).map₂
      (hvalue.spellable false (Nat.zero_le 6)) 1 fun _ _ _ hs ht => .assign hs hnil hnil ht)
  | @returnStmt value hvalue =>
    cases value with
    | none => exact hsimple (.text 0 fun _ => .return)
    | some e =>
      exact hsimple (((hvalue e rfl).spellable false (Nat.zero_le 6)).map 1 fun _ s hs =>
        .returnValue isGap_gap (avoids_gap s) hs)
  | passStmt => exact hsimple (.text 1 fun _ => .pass)

/-- A line is spelled as soon as the blocks in it are. -/
theorem isSpellable_row {l : Line} (h : Line.IsWellFormed Script.words l)
    (htarget : ∀ target op value span, l = .stmt (.assignStmt target op value) span →
      target.Fits Script.words .value)
    (hbodies : ∀ w, ∀ block ∈ l.bodies, (body w block).IsSpellable) :
    (row w [l]).IsSpellable := by
  have hcode : (items w [l]).IsSpellable → (row w [l]).IsSpellable := fun hl =>
    hl.map 1 fun _ _ hs => .code hs
  cases h with
  | decl h => exact hcode (isSpellable_declItem h (hbodies w))
  | stmt h =>
    refine hcode (isSpellable_stmtItem h (fun target op value heq => ?_) hbodies)
    exact htarget target op value _ (by rw [heq])
  | expr h =>
    exact hcode (isSpellable_item ((h.spellable false (Nat.zero_le 6)).map 2 fun _ _ hs => .expr hs))
  | @comment text span h =>
    have hpad : ∀ u ∈ ([] ++ [] : Text), u.isBlank = true ∧ u.isLineEnd = false :=
      fun u hu => absurd hu List.not_mem_nil
    -- a comment stands at the indentation of its block, like a line of code
    exact .text 0 fun _ => .comment (Text.isGap_replicate w) (Text.indentation_replicate w) h hpad

/-- Lines stand one below the other. -/
theorem isSpellable_rows (hne : block ≠ []) (h : ∀ l ∈ block, (row w [l]).IsSpellable) :
    (rows w block).IsSpellable := by
  induction block with
  | nil => exact absurd rfl hne
  | cons l more ih =>
    have hl := h l List.mem_cons_self
    by_cases hmore : more = []
    · rw [hmore]
      exact hl.map 0 fun _ _ hs => .lastRow .nil hs
    · have hrows := ih hmore fun l' hl' => h l' (List.mem_cons_of_mem l hl')
      exact hl.map₂ hrows 0 fun _ _ _ hs ht => .rows .nil hs isBreak_lineFeed ht

/-- The lines of a script are spelled at any indentation, by induction on the blocks in them. -/
theorem isSpellable_of_isScript (block : Block) :
    block.IsScript → block ≠ [] → ∀ w, (rows w block).IsSpellable := by
  induction block using Block.induction with
  | h block ih =>
    intro hscript hne w
    refine isSpellable_rows hne fun l hl => ?_
    refine isSpellable_row (hscript.isWellFormed l hl) (fun target op value span heq => ?_)
      fun w' inner hinner => ?_
    · exact hscript.target block (.inl rfl) target op value span (heq ▸ hl)
    · -- only at the top of a script a block may have no line of code, or no line at all
      have hcode := hscript.hasCode inner (.body hl hinner)
      have hsome : inner ≠ [] := by
        obtain ⟨l', hl', -⟩ := hcode
        exact List.ne_nil_of_mem hl'
      exact isSpellable_body hcode (ih l hl inner hinner (hscript.body hl hinner) hsome (w' + 1))

end Piece

/-- Every script is written by some text. -/
theorem Block.IsScript.exists_written {block : Block} (h : block.IsScript) :
    ∃ s room, Script.Written (fun _ => True) room block s := by
  by_cases hne : block = []
  · rw [hne]
    exact ⟨_, 2, .nil trivial .nil Piece.isIdleLine_nil⟩
  · obtain ⟨s, room, hs⟩ := Piece.isSpellable_of_isScript block h hne 0
    exact ⟨_, _, .rows trivial (hs room (Nat.le_refl room)) .nil⟩

end GDScript
