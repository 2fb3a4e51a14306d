import GDScript.Proofs.Between.Passing
import GDScript.Proofs.Position
import GDScript.Tree.Script

/-!
# The text between lines

A line knows the stretch of text that it was read from. `Block.remains` is what is left of a text
without the stretches of the lines of a block, and `Block.between` what stands between lines that
follow one another.

`Spaced` follows a list of lines along the text: from one cursor to another, the lines cover
stretches in this order, and what lies in between is passed over in the sense of `Passing`. A block
is spaced when that can be said of its lines, and of every block in one of them.
-/

namespace GDScript

/-! ### Blocks in lines -/

/-- The blocks that belong to a declaration. -/
def Decl.bodies : Decl → List Block
  | .functionDecl _ body | .classDecl _ _ body => [body]
  | _ => []

/-- The blocks that belong to a statement. -/
def Stmt.bodies : Stmt → List Block
  | .ifStmt branch elifs otherwise =>
    branch.block :: (elifs.map Condition.block ++ otherwise.toList)
  | .whileStmt test | .forStmt test => [test.block]
  | .matchStmt _ cases => cases.map Condition.block
  | _ => []

/-- The blocks that belong to a line. -/
def Line.bodies : Line → List Block
  | .decl declaration _ => declaration.bodies
  | .stmt statement _ => statement.bodies
  | _ => []

namespace Block

/-- The first block belongs to a line of the second one, or to a line of such a block. -/
inductive Within (inner : Block) : Block → Prop where
  | body {outer : Block} {l : Line} (hl : l ∈ outer) (h : inner ∈ l.bodies) : Within inner outer
  | deeper {outer middle : Block} {l : Line} (hl : l ∈ outer) (hmiddle : middle ∈ l.bodies)
      (h : Within inner middle) : Within inner outer

/-! ### Stretches -/

/-- The lines cover stretches that follow one another, from the first offset to the second one. -/
def InOrder (start stop : Nat) : Block → Prop
  | [] => start ≤ stop
  | l :: lines => start ≤ l.span.start.offset ∧ l.span.start.offset ≤ l.span.stop.offset ∧
    InOrder l.span.stop.offset stop lines

/-- What is left of a text, from an offset on, without the stretches of the lines. -/
def remains (source : Text) (start : Nat) : Block → List Text
  | [] => [source.drop start]
  | l :: lines => (source.drop start).take (l.span.start.offset - start) ::
    remains source l.span.stop.offset lines

/-- What stands between lines that follow one another. -/
def between (source : Text) : Block → List Text
  | l :: l' :: lines =>
    (source.drop l.span.stop.offset).take (l'.span.start.offset - l.span.stop.offset) ::
      between source (l' :: lines)
  | _ => []

theorem InOrder.of_le {start start' stop : Nat} {lines : Block} (h : InOrder start stop lines)
    (hle : start' ≤ start) : InOrder start' stop lines := by
  cases lines with
  | nil => exact Nat.le_trans hle h
  | cons l lines => exact ⟨Nat.le_trans hle h.1, h.2⟩

theorem isInfix_stretch (source : Text) (start k : Nat) :
    (source.drop start).take k <:+: source :=
  (List.take_prefix _ _).isInfix.trans (List.drop_suffix _ _).isInfix

theorem isInfix_of_mem_remains {source gap : Text} {lines : Block} {start : Nat}
    (h : gap ∈ remains source start lines) : gap <:+: source := by
  induction lines generalizing start with
  | nil =>
    rw [remains, List.mem_singleton] at h
    rw [h]
    exact (List.drop_suffix _ _).isInfix
  | cons l lines ih =>
    rw [remains, List.mem_cons] at h
    rcases h with rfl | h
    · exact isInfix_stretch source _ _
    · exact ih h

theorem isInfix_of_mem_between {source gap : Text} {lines : Block}
    (h : gap ∈ between source lines) : gap <:+: source := by
  induction lines with
  | nil => exact absurd h List.not_mem_nil
  | cons l lines ih =>
    cases lines with
    | nil => exact absurd h List.not_mem_nil
    | cons l' lines =>
      rw [between, List.mem_cons] at h
      rcases h with rfl | h
      · exact isInfix_stretch source _ _
      · exact ih h

end Block

/-! ### Passing over -/

/-- What lies between the two cursors is passed over. -/
def Passing.Leads (p : Passing) (c : Cursor) (q : Passing) (c' : Cursor) : Prop :=
  ∃ k, c' = c.advanceBy k ∧ p.after (c.ahead.take k) = some q

namespace Passing.Leads

variable {p q r : Passing} {c c' c'' : Cursor} {source : Text}

theorem refl (p : Passing) (c : Cursor) : p.Leads c p c := ⟨0, rfl, rfl⟩

theorem trans (h : p.Leads c q c') (h' : q.Leads c' r c'') : p.Leads c r c'' := by
  obtain ⟨k, rfl, hk⟩ := h
  obtain ⟨l, rfl, hl⟩ := h'
  refine ⟨k + l, Cursor.advanceBy_advanceBy k l c, ?_⟩
  rw [List.take_add, Passing.after_append hk, ← Cursor.ahead_advanceBy]
  exact hl

theorem reaches (h : p.Leads c q c') : c.Reaches c' := by
  obtain ⟨k, rfl, -⟩ := h
  exact c.reaches_advanceBy k

/-- Spaces and tabs at the start of the text ahead, as many as there are of one kind. -/
theorem takeWhile (c : Cursor) {isSpace : CodeUnit → Bool}
    (h : ∀ u, isSpace u = true → u.isSpace = true) :
    Passing.free.Leads c .free (c.advanceBy (c.ahead.takeWhile isSpace).length) := by
  refine ⟨_, rfl, Passing.free_after_of_isSpace fun u hu => h u ?_⟩
  rw [← List.prefix_iff_eq_take.mp (List.takeWhile_prefix _)] at hu
  exact Text.takeWhile_pos u hu

/-- The stretch of the text is what is passed over. -/
theorem after_stretch (h : p.Leads c q c') (hc : c.IsIn source) :
    p.after ((source.drop c.location.offset).take (c'.location.offset - c.location.offset))
      = some q := by
  obtain ⟨k, rfl, hk⟩ := h
  rw [Cursor.offset_advanceBy, Nat.add_sub_cancel_left, ← hc.ahead_eq]
  by_cases hle : k ≤ c.ahead.length
  · rwa [Nat.min_eq_left hle]
  · rw [Nat.min_eq_right (by omega), List.take_length]
    rwa [List.take_of_length_le (by omega)] at hk

end Passing.Leads

/-! ### Lines along the text -/

/--
From one cursor to another one the lines cover stretches in this order, and what lies before, between
and behind them is passed over, behind a line always from `Passing.free` on.
-/
inductive Spaced : Passing → Cursor → Block → Passing → Cursor → Prop where
  | nil {p q : Passing} {c c' : Cursor} (h : p.Leads c q c') : Spaced p c [] q c'
  | cons {p q r : Passing} {c start stop c' : Cursor} {l : Line} {lines : Block}
      (hgap : p.Leads c q start) (hreaches : start.Reaches stop)
      (hspan : l.span = ⟨start.location, stop.location⟩) (h : Spaced .free stop lines r c') :
      Spaced p c (l :: lines) r c'

namespace Spaced

variable {p q r : Passing} {c c' c'' : Cursor} {lines more : Block} {source : Text}

theorem single {start : Cursor} {l : Line} (hgap : p.Leads c q start)
    (hreaches : start.Reaches c') (hspan : l.span = ⟨start.location, c'.location⟩) :
    Spaced p c [l] .free c' :=
  .cons hgap hreaches hspan (.nil (.refl _ _))

theorem of_leads (hgap : p.Leads c q c') (h : Spaced q c' lines r c'') :
    Spaced p c lines r c'' := by
  cases h with
  | nil h => exact .nil (hgap.trans h)
  | cons hstart hreaches hspan h => exact .cons (hgap.trans hstart) hreaches hspan h

theorem append (h : Spaced p c lines q c') (h' : Spaced q c' more r c'') :
    Spaced p c (lines ++ more) r c'' := by
  induction h with
  | nil hgap => exact of_leads hgap h'
  | cons hgap hreaches hspan _ ih => exact .cons hgap hreaches hspan (ih h')

/-- Something more is passed over behind the lines. -/
theorem leads (h : Spaced p c lines q c') (hgap : q.Leads c' r c'') : Spaced p c lines r c'' := by
  have happend := h.append (.nil hgap)
  rwa [List.append_nil] at happend

theorem reaches (h : Spaced p c lines q c') : c.Reaches c' := by
  induction h with
  | nil hgap => exact hgap.reaches
  | cons hgap hreaches _ _ ih => exact (hgap.reaches.trans hreaches).trans ih

/-- The lines cover stretches of the text that follow one another. -/
theorem inOrder (h : Spaced p c lines q c') (hc : c.IsIn source) :
    Block.InOrder c.location.offset source.length lines := by
  induction h with
  | nil => exact hc.offset_le
  | cons hgap hreaches hspan _ ih =>
    have hstart := hc.reaches hgap.reaches
    have hstop := hstart.reaches hreaches
    rw [Block.InOrder, hspan]
    exact ⟨hgap.reaches.offset_le, hreaches.offset_le, ih hstop⟩

/-- What remains of the text without the lines is passed over. -/
theorem remains (h : Spaced p c lines q c') (hc : c.IsIn source) (hend : c'.ahead = [])
    (hp : p = .free) :
    ∀ gap ∈ Block.remains source c.location.offset lines, ∃ r, Passing.free.after gap = some r := by
  induction h with
  | @nil p q c c' hgap =>
    subst hp
    intro gap hmem
    rw [Block.remains, List.mem_singleton] at hmem
    obtain ⟨k, rfl, hk⟩ := hgap
    rw [Cursor.ahead_advanceBy, List.drop_eq_nil_iff] at hend
    refine ⟨q, ?_⟩
    rw [hmem, ← hc.ahead_eq]
    rwa [List.take_of_length_le hend] at hk
  | @cons p q r c start stop c' l lines hgap hreaches hspan _ ih =>
    subst hp
    intro gap hmem
    rw [Block.remains, hspan, List.mem_cons] at hmem
    rcases hmem with rfl | hmem
    · exact ⟨q, hgap.after_stretch hc⟩
    · exact ih ((hc.reaches hgap.reaches).reaches hreaches) hend rfl gap hmem

/-- What lies between lines that follow one another is passed over. -/
theorem between (h : Spaced p c lines q c') (hc : c.IsIn source) :
    ∀ gap ∈ Block.between source lines, ∃ r, Passing.free.after gap = some r := by
  induction h with
  | nil => exact fun gap hmem => absurd hmem (by simp [Block.between])
  | cons hgap hreaches hspan hrest ih =>
    have hstop := (hc.reaches hgap.reaches).reaches hreaches
    intro gap hmem
    cases hrest with
    | nil => exact absurd hmem (by simp [Block.between])
    | cons hgap' _ hspan' _ =>
      rw [Block.between, hspan, hspan', List.mem_cons] at hmem
      rcases hmem with rfl | hmem
      · exact ⟨_, hgap'.after_stretch hstop⟩
      · exact ih hstop gap hmem

end Spaced

/-! ### Blocks -/

/-- The lines of the block, and of every block in it, are spaced along the text. -/
inductive Block.IsSpaced (source : Text) : Block → Prop where
  | mk {p q : Passing} {c c' : Cursor} {block : Block} (hc : c.IsIn source)
      (h : Spaced p c block q c') (hbodies : ∀ l ∈ block, ∀ body ∈ l.bodies, IsSpaced source body) :
      IsSpaced source block

/-- The blocks that belong to the lines are spaced along the text. -/
def Block.HasSpacedBodies (source : Text) (block : Block) : Prop :=
  ∀ l ∈ block, ∀ body ∈ l.bodies, IsSpaced source body

theorem Block.HasSpacedBodies.append {source : Text} {lines more : Block}
    (h : lines.HasSpacedBodies source) (h' : more.HasSpacedBodies source) :
    Block.HasSpacedBodies source (lines ++ more) :=
  fun l hl => (List.mem_append.mp hl).elim (h l) (h' l)

/-- A block within one whose bodies are spaced is spaced. -/
theorem Block.Within.isSpaced {source : Text} {inner outer : Block} (h : inner.Within outer)
    (houter : outer.HasSpacedBodies source) : inner.IsSpaced source := by
  induction h with
  | body hl hinner => exact houter _ hl _ hinner
  | deeper hl hmiddle _ ih =>
    cases houter _ hl _ hmiddle with
    | mk _ _ hbodies => exact ih hbodies

end GDScript
