import GDScript.Proofs.Script.Lines

/-!
# Texts as lines

A text is split at its line feeds (`Text.lines`), and lines are joined with line feeds between
neighbours (`Text.unlines`). Splitting undoes joining if no line holds a line feed
(`Text.lines_unlines`); in any case a text has one line more than line feeds (`Text.length_lines`).
-/

namespace GDScript.Text

variable {l m s t : Text} {ls : List Text}

/-! ### Indentation -/

/-- The spaces at the start of a text, and what follows them. -/
theorem exists_indentation (t : Text) :
    ∃ m, t = spaces t.indentation ++ m ∧ m.Avoids (· == CodeUnit.space) := by
  have htake : t.takeWhile (· == CodeUnit.space) = spaces t.indentation :=
    List.eq_replicate_iff.mpr ⟨rfl, fun u hu => by simpa using takeWhile_pos u hu⟩
  refine ⟨t.dropWhile (· == CodeUnit.space), ?_, avoids_dropWhile _ t⟩
  rw [← htake, List.takeWhile_append_dropWhile]

/-- So many spaces are the indentation, if no other one follows. -/
theorem indentation_spaces (w : Nat) (hm : m.Avoids (· == CodeUnit.space)) :
    indentation (spaces w ++ m) = w := by
  have hspaces : ∀ u ∈ spaces w, (u == CodeUnit.space) = true := fun u hu => by
    rw [List.eq_of_mem_replicate hu, beq_self_eq_true]
  rw [indentation, takeWhile_append hspaces hm, List.length_replicate]

/-- Behind the spaces stands what stood behind them. -/
theorem drop_spaces (w : Nat) (t : Text) : (spaces w ++ t).drop w = t :=
  List.drop_left' List.length_replicate

/-- A space is no line feed. -/
theorem spaces_ne_lineFeed (w : Nat) : ∀ u ∈ spaces w, u ≠ CodeUnit.lineFeed := by
  intro u hu
  rw [List.eq_of_mem_replicate hu]
  decide

/-! ### Splitting and joining -/

/-- Lines are what the line feeds separate. -/
theorem lines_eq_splitOn (t : Text) : lines t = t.splitOn CodeUnit.lineFeed := by
  induction t with
  | nil => rfl
  | cons u t ih =>
    rw [lines, List.splitOn_cons_eq_if_modifyHead, ih]
    split
    · rfl
    · -- the parts are never empty, so there is a first one to put the unit in front of
      cases hsplit : t.splitOn CodeUnit.lineFeed with
      | nil => exact absurd hsplit (List.splitOn_ne_nil _ t)
      | cons line more => rfl

/-- A text has one line at least. -/
theorem lines_ne_nil (t : Text) : lines t ≠ [] := by
  rw [lines_eq_splitOn]
  exact List.splitOn_ne_nil _ t

/-- A text without line feeds is one line. -/
theorem lines_of_lineFeed_notMem {l : Text} (hl : ∀ u ∈ l, u ≠ CodeUnit.lineFeed) :
    lines l = [l] := by
  rw [lines_eq_splitOn]
  exact List.splitOn_eq_singleton fun hmem => hl _ hmem rfl

/-- The first line ends at the first line feed. -/
theorem lines_append {l : Text} (hl : ∀ u ∈ l, u ≠ CodeUnit.lineFeed) (rest : Text) :
    lines (l ++ CodeUnit.lineFeed :: rest) = l :: lines rest := by
  rw [lines_eq_splitOn, lines_eq_splitOn]
  exact List.splitOn_append_cons_self_of_not_mem (fun hmem => hl _ hmem rfl) rest

/-- One line is joined to itself. -/
theorem unlines_singleton (l : Text) : unlines [l] = l := by
  simp [unlines, join, List.intercalate]

/-- A line is joined to the others by a line feed. -/
theorem unlines_cons (l : Text) {ls : List Text} (hls : ls ≠ []) :
    unlines (l :: ls) = l ++ CodeUnit.lineFeed :: unlines ls := by
  obtain ⟨m, ls, rfl⟩ := List.exists_cons_of_ne_nil hls
  simp [unlines, join, List.intercalate]

/-- Lines that are joined are found again if they hold no line feeds. -/
theorem lines_unlines (hne : ls ≠ []) (h : ∀ l ∈ ls, ∀ u ∈ l, u ≠ CodeUnit.lineFeed) :
    lines (unlines ls) = ls := by
  rw [lines_eq_splitOn]
  exact List.splitOn_intercalate CodeUnit.lineFeed (fun l hl hmem => h l hl _ hmem rfl) hne

/-! ### Line feeds -/

/-- The number of line feeds in a text. -/
def feeds (t : Text) : Nat := t.count CodeUnit.lineFeed

@[simp] theorem feeds_nil : feeds [] = 0 := rfl

/-- Line feeds add up. -/
@[simp] theorem feeds_append (s t : Text) : (s ++ t).feeds = s.feeds + t.feeds :=
  List.count_append

theorem feeds_cons {u : CodeUnit} (hu : u ≠ CodeUnit.lineFeed) (t : Text) :
    feeds (u :: t) = feeds t :=
  List.count_cons_of_ne fun h => hu h

@[simp] theorem feeds_lineFeed (t : Text) : feeds (CodeUnit.lineFeed :: t) = feeds t + 1 :=
  List.count_cons_self

/-- A text without line feeds has none of them. -/
theorem feeds_eq_zero_iff : t.feeds = 0 ↔ ∀ u ∈ t, u ≠ CodeUnit.lineFeed := by
  rw [feeds, List.count_eq_zero]
  exact ⟨fun h u hu hfeed => h (hfeed ▸ hu), fun h hmem => h _ hmem rfl⟩

@[simp] theorem feeds_spaces (w : Nat) : feeds (spaces w) = 0 :=
  feeds_eq_zero_iff.mpr (spaces_ne_lineFeed w)

/-- A text has one line more than line feeds. -/
theorem length_lines (t : Text) : (lines t).length = t.feeds + 1 := by
  induction t with
  | nil => rfl
  | cons u t ih =>
    rw [lines]
    -- a line feed starts a line, any other unit belongs to the first one
    by_cases hu : u = CodeUnit.lineFeed
    · rw [if_pos (by simpa using hu), List.length_cons, ih, hu, feeds_lineFeed]
    · rw [if_neg (by simpa using hu), feeds_cons hu, ← ih]
      split
      · next hnil => exact absurd hnil (lines_ne_nil t)
      · next heq => rw [heq, List.length_cons, List.length_cons]

/-- Joining puts one line feed less than there are lines. -/
theorem feeds_unlines (hne : ls ≠ []) :
    (unlines ls).feeds + 1 = ls.length + feeds ls.flatten := by
  induction ls with
  | nil => exact absurd rfl hne
  | cons l ls ih =>
    rw [List.length_cons, List.flatten_cons, feeds_append]
    -- behind the last line there is no line feed
    by_cases hmore : ls = []
    · rw [hmore, unlines_singleton, List.length_nil, List.flatten_nil, feeds_nil]
      omega
    · have hls := ih hmore
      rw [unlines_cons l hmore, feeds_append, feeds_lineFeed]
      omega

/-- A separator without line feeds brings none. -/
theorem feeds_join {separator : Text} (h : separator.feeds = 0) (parts : List Text) :
    (join separator parts).feeds = feeds parts.flatten := by
  induction parts with
  | nil => rfl
  | cons part parts ih =>
    cases parts with
    | nil => rw [join, List.intercalate_singleton, List.flatten_cons, List.flatten_nil,
        List.append_nil]
    | cons next parts =>
      rw [join, List.intercalate_cons_cons, ← join, feeds_append, feeds_append, ih, h, Nat.add_zero,
        List.flatten_cons (l := part), feeds_append]

/-- What is written for each value has as many line feeds as what is listed of it. -/
theorem feeds_flatten_map {α : Type} {as : List α} {f : α → Text} {g : α → List Text}
    (h : ∀ a ∈ as, (f a).feeds = feeds (g a).flatten) :
    feeds (as.map f).flatten = feeds (as.flatMap g).flatten := by
  induction as with
  | nil => rfl
  | cons a as ih =>
    obtain ⟨ha, has⟩ := List.forall_mem_cons.mp h
    rw [List.map_cons, List.flatten_cons, feeds_append, ha, ih has, List.flatMap_cons,
      List.flatten_append, feeds_append]

end GDScript.Text
