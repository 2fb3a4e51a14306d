import GDScript.Proofs.Pairing.File
import GDScript.Proofs.Pairing.Layout
import Mathlib.Order.Monotone.Defs

/-!
# Other indentations

Widths of indentations are only compared with each other. So when the lines of a script are indented
by other widths in the same order, with no indentation where there was none, it has the same tree up
to places (`Script.exists_reindent_of_parse`). Only a line that starts inside a string or a quoted
path would change what stands there.
-/

namespace GDScript

open Grammar

namespace Text

/-- Each line with `w` spaces at its start gets `f w` of them. -/
def reindent (f : Nat → Nat) (t : Text) : Text :=
  unlines ((lines t).map fun l => spaces (f (indentation l)) ++ l.drop (indentation l))

/-- The line before a line feed, and the lines behind it. -/
theorem reindent_append (f : Nat → Nat) {l : Text} (hl : ∀ u ∈ l, u ≠ CodeUnit.lineFeed)
    (rest : Text) :
    reindent f (l ++ CodeUnit.lineFeed :: rest)
      = spaces (f l.indentation) ++ l.drop l.indentation ++ CodeUnit.lineFeed :: reindent f rest := by
  have hne : (lines rest).map (fun l => spaces (f (indentation l)) ++ l.drop (indentation l))
      ≠ [] := by
    simpa using lines_ne_nil rest
  rw [reindent, lines_append hl, List.map_cons, unlines_cons _ hne]
  rfl

end Text

namespace Layout

variable {f : Nat → Nat}

/-- The layout with other indentations, and no returns before line feeds. -/
def reindented (hf : StrictMono f) (hzero : f 0 = 0) : Layout where
  width := f
  returns := []
  width_zero := hzero
  width_lt h := hf h
  returns_eq := .inl rfl

/-- Laying a text out anew is to indent its lines. -/
theorem anew_reindented (hf : StrictMono f) (hzero : f 0 = 0) (t : Text) :
    (reindented hf hzero).anew t = t.reindent f := by
  induction hlength : t.length using Nat.strong_induction_on generalizing t with
  | _ length ih =>
    obtain ⟨m, ht, hm⟩ := t.exists_indentation
    generalize t.indentation = w at ht
    -- line by line: the last one, and one with a line feed behind it
    obtain ⟨l, rest, hl, -, ⟨rfl, -⟩ | rfl⟩ := m.exists_line
    · have hline : ∀ u ∈ Text.spaces w ++ m, u ≠ CodeUnit.lineFeed :=
        List.forall_mem_append.mpr ⟨Text.spaces_ne_lineFeed w, hl⟩
      rw [ht, anew_spaces _ w hm, within_eq_self _ hl, Text.reindent,
        Text.lines_of_lineFeed_notMem hline, List.map_singleton, Text.indentation_spaces w hm,
        Text.drop_spaces, Text.unlines_singleton]
      rfl
    · have hline : ∀ u ∈ Text.spaces w ++ l, u ≠ CodeUnit.lineFeed :=
        List.forall_mem_append.mpr ⟨Text.spaces_ne_lineFeed w, hl⟩
      have hlavoids : Text.Avoids (· == CodeUnit.space) l := by
        cases l with
        | nil => exact Text.avoids_nil _
        | cons u l => exact hm
      have hrest := ih rest.length (by
        rw [← hlength, ht, List.length_append, List.length_append, List.length_cons]
        omega) rest rfl
      rw [ht, anew_spaces _ w hm, within_append _ hl, within_lineFeed, hrest,
        ← List.append_assoc (Text.spaces w), Text.reindent_append f hline,
        Text.indentation_spaces w hlavoids, Text.drop_spaces, ← List.append_assoc]
      rfl

/-- Nothing is told of the places but that the lines go together. -/
def reindentedAccount (hf : StrictMono f) (hzero : f 0 = 0) (source : Text) :
    (reindented hf hzero).Account source (source.reindent f) where
  reports := .loose fun _ _ => True
  view := Location.nowhere
  view' := Location.nowhere
  view_eq _ := Location.nowhere_eq _ _
  complaint_eq _ _ _ := trivial
  complaint_indentation _ _ := trivial
  place_inside _ := trivial
  place_between _ := trivial

end Layout

namespace Script

variable {source : Text} {depth : Option Int} {block : Block} {f : Nat → Nat}

/--
With the lines indented by other widths, in the same order, a script has the same tree up to places, if
none of its strings and quoted paths spans lines.
-/
theorem exists_reindent_of_parse (hf : StrictMono f) (hzero : f 0 = 0)
    (hquoted : ∀ t ∈ block.quotations, CodeUnit.lineFeed ∉ t)
    (h : parse source depth = .ok block) :
    ∃ block', parse (source.reindent f) depth = .ok block' ∧ block'.bare = block.bare := by
  let y := Layout.reindented hf hzero
  let a := Layout.reindentedAccount hf hzero source
  have hstart : y.Between source (source.reindent f) (Cursor.ofText source)
      (Cursor.ofText (source.reindent f)) := by
    have hfits : y.Fits source := fun hne => absurd rfl hne
    have hbetween := Layout.between_ofText hfits
    rw [Layout.anew_reindented hf hzero] at hbetween
    exact hbetween
  have htogether := Layout.endTogether_pairing a
  obtain ⟨block', hparse, hsame⟩ := exists_of_pairs (r := a.reports)
    (Q := (y.pairing a).SameBlock) rfl trivial (fun room _ =>
      (Pairing.pairs_topLines htogether hstart).mono fun _ _ d d' hlines hnil =>
        ⟨hlines.1, Pairing.nextCode_eq_nil htogether hlines.2.1 hnil⟩) h
  refine ⟨block', hparse, ?_⟩
  -- what is quoted holds no line feed, so it is not laid out anew
  have hquotations : block.map y.within Location.nowhere = block.map id Location.nowhere :=
    Block.map_congr fun t ht => y.within_eq_self fun u hu hlineFeed => hquoted t ht (hlineFeed ▸ hu)
  calc block'.bare = block'.map id Location.nowhere := block'.bare_eq_map
    _ = block.map y.within Location.nowhere := hsame
    _ = block.map id Location.nowhere := hquotations
    _ = block.bare := block.bare_eq_map.symm

/--
Three spaces for each one, also in front of the lines within brackets, which need no indentation.
-/
theorem exists_reindent_of_parse_class :
    StrictMono (fun w => 3 * w) ∧ ∃ block,
      parse "class A:\n func f(\n  x):\n  return 'b'\n# c\nd = [\n ]\n" none = .ok block ∧
        (∀ t ∈ block.quotations, CodeUnit.lineFeed ∉ t) ∧ ∃ block',
          parse (Text.reindent (fun w => 3 * w)
            "class A:\n func f(\n  x):\n  return 'b'\n# c\nd = [\n ]\n") none = .ok block' ∧
          block'.bare = block.bare := by
  have hmono : StrictMono fun w => 3 * w := fun v w h => by dsimp only; omega
  have hok : ((parse "class A:\n func f(\n  x):\n  return 'b'\n# c\nd = [\n ]\n" none).toOption.any
      fun block => block.quotations.all fun t => !t.contains CodeUnit.lineFeed) = true := by
    decide +kernel
  cases hparse : parse "class A:\n func f(\n  x):\n  return 'b'\n# c\nd = [\n ]\n" none with
  | error failure =>
    rw [hparse] at hok
    cases hok
  | ok block =>
    rw [hparse] at hok
    have hquoted : ∀ t ∈ block.quotations, CodeUnit.lineFeed ∉ t := by
      simpa [Except.toOption] using hok
    exact ⟨hmono, block, rfl, hquoted, exists_reindent_of_parse hmono rfl hquoted hparse⟩

end Script

end GDScript
