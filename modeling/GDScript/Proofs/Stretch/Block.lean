import GDScript.Proofs.Between.Spaced
import Mathlib.Data.List.Chain

/-!
# How stretches lie in each other

The lines of a block cover stretches in their order (`Block.InOrder`), and the blocks of a line lie
in the stretch of the line, one behind the other (`Block.AreApart`). A block is nested
(`Block.IsNested`) when that can be said of the line at every depth; what it means for the
stretches themselves is `Block.IsLaidOut`.
-/

namespace GDScript

/-- The stretch lies inside the other one. -/
structure Span.IsInside (inner outer : Span) : Prop where
  start_le : outer.start.offset ≤ inner.start.offset
  le_stop : inner.stop.offset ≤ outer.stop.offset

/-- Stretches lie in each other transitively. -/
theorem Span.IsInside.trans {s t r : Span} (h : s.IsInside t) (h' : t.IsInside r) : s.IsInside r :=
  ⟨Nat.le_trans h'.start_le h.start_le, Nat.le_trans h.le_stop h'.le_stop⟩

namespace Block

variable {start start' mid stop stop' : Nat} {lines more : Block} {bodies later : List Block}

/-! ### Lines -/

/-- Lines in order end behind the place where they start. -/
theorem InOrder.le (h : InOrder start stop lines) : start ≤ stop := by
  induction lines generalizing start with
  | nil => exact h
  | cons l lines ih => exact Nat.le_trans (Nat.le_trans h.1 h.2.1) (ih h.2.2)

/-- Lines may end before a later place. -/
theorem InOrder.mono_right (h : InOrder start stop lines) (hle : stop ≤ stop') :
    InOrder start stop' lines := by
  induction lines generalizing start with
  | nil => exact Nat.le_trans h hle
  | cons l lines ih => exact ⟨h.1, h.2.1, ih h.2.2⟩

/-- Lines behind lines are in order where they meet. -/
theorem InOrder.append (h : InOrder start mid lines) (h' : InOrder mid stop more) :
    InOrder start stop (lines ++ more) := by
  induction lines generalizing start with
  | nil => exact h'.of_le h
  | cons l lines ih => exact ⟨h.1, h.2.1, ih h.2.2⟩

/-- Every line lies between the offsets. -/
theorem InOrder.bounds (h : InOrder start stop lines) :
    ∀ l ∈ lines, start ≤ l.span.start.offset ∧ l.span.stop.offset ≤ stop := by
  induction lines generalizing start with
  | nil => exact fun l hl => absurd hl List.not_mem_nil
  | cons first lines ih =>
    refine List.forall_mem_cons.mpr ⟨⟨h.1, h.2.2.le⟩, fun l hl => ?_⟩
    obtain ⟨hstart, hstop⟩ := ih h.2.2 l hl
    exact ⟨Nat.le_trans (Nat.le_trans h.1 h.2.1) hstart, hstop⟩

/-- A line ends before the next one starts, or where it does. -/
theorem InOrder.isChain (h : InOrder start stop lines) :
    lines.IsChain fun l next => l.span.stop.offset ≤ next.span.start.offset := by
  induction lines generalizing start with
  | nil => exact .nil
  | cons l lines ih =>
    -- two lines next to each other meet where the second one starts
    cases lines with
    | nil => exact .singleton l
    | cons next lines => exact .cons_cons h.2.2.1 (ih h.2.2)

/-! ### Blocks -/

/-- The blocks lie between the offsets one behind the other, with a unit at least before each. -/
def AreApart (start stop : Nat) : List Block → Prop
  | [] => start ≤ stop
  | body :: bodies => ∃ mid, body.InOrder (start + 1) mid ∧ AreApart mid stop bodies

/-- Blocks end behind the place where they start. -/
theorem AreApart.le (h : AreApart start stop bodies) : start ≤ stop := by
  induction bodies generalizing start with
  | nil => exact h
  | cons body bodies ih =>
    obtain ⟨mid, hbody, hbodies⟩ := h
    exact Nat.le_trans (Nat.le_of_succ_le hbody.le) (ih hbodies)

/-- Blocks may start behind an earlier place. -/
theorem AreApart.mono_left (h : AreApart start stop bodies) (hle : start' ≤ start) :
    AreApart start' stop bodies := by
  cases bodies with
  | nil => exact Nat.le_trans hle h
  | cons body bodies =>
    obtain ⟨mid, hbody, hbodies⟩ := h
    exact ⟨mid, hbody.of_le (Nat.succ_le_succ hle), hbodies⟩

/-- Blocks behind blocks lie apart where they meet. -/
theorem AreApart.append (h : AreApart start mid bodies) (h' : AreApart mid stop later) :
    AreApart start stop (bodies ++ later) := by
  induction bodies generalizing start with
  | nil => exact h'.mono_left h
  | cons body bodies ih =>
    obtain ⟨next, hbody, hbodies⟩ := h
    exact ⟨next, hbody, ih hbodies⟩

/-- Blocks may end before a later place. -/
theorem AreApart.mono_right (h : AreApart start stop bodies) (hle : stop ≤ stop') :
    AreApart start stop' bodies := by
  have happend := h.append (show AreApart stop stop' [] from hle)
  rwa [List.append_nil] at happend

/-- Every line of the blocks lies behind the first place and before the last one. -/
theorem AreApart.bounds (h : AreApart start stop bodies) :
    ∀ body ∈ bodies, ∀ l ∈ body, start < l.span.start.offset ∧ l.span.stop.offset ≤ stop := by
  induction bodies generalizing start with
  | nil => exact fun body hbody => absurd hbody List.not_mem_nil
  | cons first bodies ih =>
    obtain ⟨mid, hfirst, hbodies⟩ := h
    -- a unit stands between the blocks, so the later ones lie behind the start as well
    have hmid : start + 1 ≤ mid := hfirst.le
    refine List.forall_mem_cons.mpr ⟨fun l hl => ?_, fun body hbody l hl => ?_⟩
    · exact (hfirst.bounds l hl).imp_right fun hle => Nat.le_trans hle hbodies.le
    · exact (ih hbodies body hbody l hl).imp_left (Nat.lt_trans hmid)

/-- A block starts behind the end of every block before it. -/
theorem AreApart.pairwise (h : AreApart start stop bodies) :
    bodies.Pairwise fun body next => ∀ l ∈ body, ∀ l' ∈ next,
      l.span.stop.offset < l'.span.start.offset := by
  induction bodies generalizing start with
  | nil => exact .nil
  | cons body bodies ih =>
    obtain ⟨mid, hbody, hbodies⟩ := h
    refine .cons (fun next hnext l hl l' hl' => ?_) (ih hbodies)
    exact Nat.lt_of_le_of_lt (hbody.bounds l hl).2 (hbodies.bounds next hnext l' hl').1

/-! ### Blocks in lines -/

/--
Every line takes a unit at least, and its blocks lie apart inside it; and so it is with the lines of
these blocks.
-/
inductive IsNested : Block → Prop where
  | mk {block : Block}
      (h : ∀ l ∈ block, l.span.start.offset < l.span.stop.offset ∧
        AreApart l.span.start.offset l.span.stop.offset l.bodies)
      (hbodies : ∀ l ∈ block, ∀ body ∈ l.bodies, IsNested body) : IsNested block

/-- Lines nest one by one. -/
theorem IsNested.append (h : lines.IsNested) (h' : more.IsNested) : IsNested (lines ++ more) := by
  obtain ⟨hlines, hbodies⟩ := h
  obtain ⟨hmore, hbodies'⟩ := h'
  exact .mk (fun l hl => (List.mem_append.mp hl).elim (hlines l) (hmore l))
    fun l hl => (List.mem_append.mp hl).elim (hbodies l) (hbodies' l)

/-- What holds at every depth holds of a block within. -/
theorem Within.isNested {inner outer : Block} (h : inner.Within outer) (houter : outer.IsNested) :
    inner.IsNested := by
  induction h with
  | body hl hinner =>
    obtain ⟨-, hbodies⟩ := houter
    exact hbodies _ hl _ hinner
  | deeper hl hmiddle _ ih =>
    obtain ⟨-, hbodies⟩ := houter
    exact ih (hbodies _ hl _ hmiddle)

/-- A block within lines lies inside one of them. -/
theorem Within.exists_isInside {inner outer : Block} (h : inner.Within outer)
    (houter : outer.IsNested) : ∃ l ∈ outer, ∀ l' ∈ inner, l'.span.IsInside l.span := by
  -- a block of a line, or one that lies deeper, in a line of that block
  induction h with
  | @body outer l hl hinner =>
    obtain ⟨hlines, -⟩ := houter
    refine ⟨l, hl, fun l' hl' => ?_⟩
    obtain ⟨hstart, hstop⟩ := (hlines l hl).2.bounds _ hinner l' hl'
    exact ⟨Nat.le_of_lt hstart, hstop⟩
  | @deeper outer middle l hl hmiddle _ ih =>
    obtain ⟨hlines, hbodies⟩ := houter
    obtain ⟨m, hm, hinside⟩ := ih (hbodies l hl _ hmiddle)
    obtain ⟨hstart, hstop⟩ := (hlines l hl).2.bounds _ hmiddle m hm
    exact ⟨l, hl, fun l' hl' => (hinside l' hl').trans ⟨Nat.le_of_lt hstart, hstop⟩⟩

/-- The stretches of the lines of a block, and of the blocks in them, in a text. -/
structure IsLaidOut (source : Text) (block : Block) : Prop where
  /-- A line takes a unit at least, and it does not go beyond the text. -/
  proper : ∀ l ∈ block,
    l.span.start.offset < l.span.stop.offset ∧ l.span.stop.offset ≤ source.length
  /-- Lines that follow one another do not overlap. -/
  inTurn : block.IsChain fun l next => l.span.stop.offset ≤ next.span.start.offset
  /-- The lines of the blocks in a line, however deep, lie inside it. -/
  inside : ∀ l ∈ block, ∀ inner : Block, inner.Within [l] →
    ∀ l' ∈ inner, l'.span.IsInside l.span
  /-- Of the blocks of a line a later one starts behind the end of an earlier one. -/
  apart : ∀ l ∈ block, l.bodies.Pairwise fun body next => ∀ l₁ ∈ body, ∀ l₂ ∈ next,
    l₁.span.stop.offset < l₂.span.start.offset

theorem IsNested.isLaidOut {source : Text} {block : Block} (h : block.IsNested)
    (horder : block.InOrder start source.length) : block.IsLaidOut source := by
  obtain ⟨hlines, hbodies⟩ := h
  refine ⟨fun l hl => ⟨(hlines l hl).1, (horder.bounds l hl).2⟩, horder.isChain,
    fun l hl inner hinner l' hl' => ?_, fun l hl => (hlines l hl).2.pairwise⟩
  have hsingle : IsNested [l] :=
    .mk (by simpa using hlines l hl) (by simpa using hbodies l hl)
  obtain ⟨m, hm, hinside⟩ := hinner.exists_isInside hsingle
  rw [← List.mem_singleton.mp hm]
  exact hinside l' hl'

/-! ### Between two cursors -/

/-- The lines lie between the offsets in their order, and are nested. -/
structure Fits (start stop : Nat) (lines : Block) : Prop where
  inOrder : lines.InOrder start stop
  isNested : lines.IsNested

/-- The blocks lie apart between the offsets, and are nested. -/
structure Nest (start stop : Nat) (bodies : List Block) : Prop where
  areApart : AreApart start stop bodies
  areNested : ∀ body ∈ bodies, body.IsNested

theorem fits_nil (h : start ≤ stop) : Fits start stop [] :=
  ⟨h, .mk (by simp) (by simp)⟩

theorem Fits.mono (h : Fits mid stop lines) (hstart : start ≤ mid) (hstop : stop ≤ stop') :
    Fits start stop' lines :=
  ⟨(h.inOrder.of_le hstart).mono_right hstop, h.isNested⟩

theorem Fits.append (h : Fits start mid lines) (h' : Fits mid stop more) :
    Fits start stop (lines ++ more) :=
  ⟨h.inOrder.append h'.inOrder, h.isNested.append h'.isNested⟩

/-- A line whose blocks nest in its stretch. -/
theorem fits_singleton {l : Line} (hlt : l.span.start.offset < l.span.stop.offset)
    (h : Nest l.span.start.offset l.span.stop.offset l.bodies) :
    Fits l.span.start.offset l.span.stop.offset [l] := by
  refine ⟨⟨Nat.le_refl _, Nat.le_of_lt hlt, Nat.le_refl _⟩, .mk ?_ ?_⟩
  · simpa using ⟨hlt, h.areApart⟩
  · simpa using h.areNested

theorem nest_nil (h : start ≤ stop) : Nest start stop [] :=
  ⟨h, by simp⟩

theorem Nest.mono_left (h : Nest mid stop bodies) (hstart : start ≤ mid) : Nest start stop bodies :=
  ⟨h.areApart.mono_left hstart, h.areNested⟩

theorem Nest.append (h : Nest start mid bodies) (h' : Nest mid stop later) :
    Nest start stop (bodies ++ later) :=
  ⟨h.areApart.append h'.areApart,
    fun body hbody => (List.mem_append.mp hbody).elim (h.areNested body) (h'.areNested body)⟩

/-- A block behind a unit at least. -/
theorem Fits.nest (h : Fits mid stop lines) (hlt : start < mid) : Nest start stop [lines] :=
  ⟨⟨stop, h.inOrder.of_le hlt, Nat.le_refl stop⟩, by simpa using h.isNested⟩

end Block

end GDScript
