import GDScript.Diagnostic.Template
import Mathlib.Data.List.Basic

/-!
# Filling templates in text form

`Template.Reaches` says what a template in text form makes of its first part, piece by piece, and
what is left of it: units, doubled braces and names in braces. A whole template that is written out
reaches its end with its arguments in place, and one that reaches a brace without an end is left as
it is, whatever came before it; every text does one of the two (`Template.render_write`). Values are
part of what is made and never of what is read.
-/

namespace GDScript.Template

/-- A name that has no braces. -/
def IsPlainName (name : Text) : Prop := openBrace ∉ name ∧ closeBrace ∉ name

instance (name : Text) : Decidable (IsPlainName name) := inferInstanceAs (Decidable (_ ∧ _))

/-- What follows a brace neither doubles it nor closes it. -/
def IsUnclosed (tail : Text) : Prop := tail.head? ≠ some openBrace ∧ closeBrace ∉ tail

instance (tail : Text) : Decidable (IsUnclosed tail) := inferInstanceAs (Decidable (_ ∧ _))

/--
`Reaches arguments text written rest`: behind a part of the text, which makes what is written, the
rest is left.
-/
inductive Reaches (arguments : Arguments) : Text → Text → Text → Prop where
  | here {text : Text} : Reaches arguments text [] text
  /-- A unit stands for itself; so does a closing brace that is not doubled. -/
  | unit {u : CodeUnit} {text written rest : Text} (hopen : u ≠ openBrace)
      (hclose : u = closeBrace → text.head? ≠ some closeBrace)
      (h : Reaches arguments text written rest) :
      Reaches arguments (u :: text) (u :: written) rest
  /-- A doubled brace stands for one. -/
  | brace {u : CodeUnit} {text written rest : Text} (hu : u = openBrace ∨ u = closeBrace)
      (h : Reaches arguments text written rest) :
      Reaches arguments (u :: u :: text) (u :: written) rest
  /-- A name in braces stands for its value. -/
  | argument {name text written rest : Text} (hopen : name.head? ≠ some openBrace)
      (hclose : closeBrace ∉ name) (h : Reaches arguments text written rest) :
      Reaches arguments (openBrace :: (name ++ closeBrace :: text))
        (arguments.format name ++ written) rest

variable {arguments : Arguments} {text written rest : Text}

/-! ### Names -/

theorem expand_name (name : Text) (read : Text) (hclose : closeBrace ∉ name) :
    expand arguments (some read) (name ++ closeBrace :: text)
      = (expand arguments none text).map (arguments.format (read.reverse ++ name) ++ ·) := by
  -- on the name, of which the part read so far stands in reverse
  induction name generalizing read with
  | nil =>
    rw [List.nil_append, List.append_nil]
    simp [expand]
  | cons u name ih =>
    have hu : (u == closeBrace) = false := by
      rw [beq_eq_false_iff_ne]
      rintro rfl
      exact hclose List.mem_cons_self
    have hname : closeBrace ∉ name := fun hmem => hclose (List.mem_cons_of_mem u hmem)
    rw [List.cons_append, expand, hu]
    simp only [Bool.false_eq_true, if_false]
    rw [ih (u :: read) hname, List.reverse_cons, List.append_assoc, List.singleton_append]

theorem expand_unclosed_name (tail read : Text) (hclose : closeBrace ∉ tail) :
    expand arguments (some read) tail = none := by
  induction tail generalizing read with
  | nil => rfl
  | cons u tail ih =>
    have hu : (u == closeBrace) = false := by
      rw [beq_eq_false_iff_ne]
      rintro rfl
      exact hclose List.mem_cons_self
    rw [expand, hu]
    exact ih (u :: read) fun hmem => hclose (List.mem_cons_of_mem u hmem)

/-- A brace that is not doubled opens a name. -/
theorem expand_openBrace (hne : text ≠ []) (hopen : text.head? ≠ some openBrace) :
    expand arguments none (openBrace :: text) = expand arguments (some []) text := by
  cases text with
  | nil => exact absurd rfl hne
  | cons u text =>
    have hu : (u == openBrace) = false := by
      rw [beq_eq_false_iff_ne]
      rintro rfl
      exact hopen rfl
    simp [expand, hu]

theorem expand_unclosed (h : IsUnclosed text) : expand arguments none (openBrace :: text) = none := by
  by_cases hne : text = []
  · rw [hne]
    rfl
  · rw [expand_openBrace hne h.1]
    exact expand_unclosed_name text [] h.2

/-! ### Pieces -/

theorem expand_unit {u : CodeUnit} (hopen : u ≠ openBrace)
    (hclose : u = closeBrace → text.head? ≠ some closeBrace) :
    expand arguments none (u :: text) = (expand arguments none text).map (u :: ·) := by
  have hu : (u == openBrace) = false := beq_false_of_ne hopen
  cases text with
  | nil => simp [expand, hu]
  | cons v text =>
    -- two closing braces are the only pair that is taken together
    have hv : (u == closeBrace && v == closeBrace) = false := by
      rw [Bool.and_eq_false_iff, beq_eq_false_iff_ne, beq_eq_false_iff_ne]
      by_cases hu : u = closeBrace
      · right
        rintro rfl
        exact hclose hu rfl
      · left
        exact hu
    rw [expand, hu, hv]
    rfl

theorem expand_brace {u : CodeUnit} (hu : u = openBrace ∨ u = closeBrace) :
    expand arguments none (u :: u :: text) = (expand arguments none text).map (u :: ·) := by
  rcases hu with rfl | rfl
  · rw [expand]
    rfl
  · rw [expand]
    rfl

theorem expand_argument {name : Text} (hopen : name.head? ≠ some openBrace)
    (hclose : closeBrace ∉ name) :
    expand arguments none (openBrace :: (name ++ closeBrace :: text))
      = (expand arguments none text).map (arguments.format name ++ ·) := by
  have hhead : (name ++ closeBrace :: text).head? ≠ some openBrace := by
    cases name with
    | nil => exact fun hbrace => absurd (Option.some.inj hbrace) (by decide)
    | cons u name => exact hopen
  rw [expand_openBrace (by simp) hhead, expand_name name [] hclose]
  rfl

/-- What is made of the whole is what has been written, and what is made of the rest behind it. -/
theorem Reaches.expand_eq (h : Reaches arguments text written rest) :
    expand arguments none text = (expand arguments none rest).map (written ++ ·) := by
  induction h with
  | here => simp
  | unit hopen hclose h ih =>
    rw [expand_unit hopen hclose, ih, Option.map_map]
    rfl
  | brace hu h ih =>
    rw [expand_brace hu, ih, Option.map_map]
    rfl
  | argument hopen hclose h ih =>
    rw [expand_argument hopen hclose, ih, Option.map_map]
    simp only [Function.comp_def, List.append_assoc]

/-- A template that is read to its end is filled. -/
theorem Reaches.render_eq (h : Reaches arguments text written []) :
    render arguments text = written := by
  have hexpand : expand arguments none text = some (written ++ []) := h.expand_eq
  rw [render, hexpand, List.append_nil]
  rfl

/-- A template with a brace that has no end is left as it is. -/
theorem Reaches.render_eq_self {tail : Text}
    (h : Reaches arguments text written (openBrace :: tail)) (htail : IsUnclosed tail) :
    render arguments text = text := by
  have hexpand : expand arguments none text = none := by
    rw [h.expand_eq, expand_unclosed htail]
    rfl
  rw [render, hexpand]
  rfl

/-! ### Whole templates -/

theorem reaches_doubled (t : Text) (h : Reaches arguments text written rest) :
    Reaches arguments (doubled t ++ text) (t ++ written) rest := by
  induction t with
  | nil => exact h
  | cons u t ih =>
    rw [doubled]
    split
    · next hu =>
      rw [Bool.or_eq_true, beq_iff_eq, beq_iff_eq] at hu
      exact .brace hu ih
    · next hu =>
      rw [Bool.or_eq_true, beq_iff_eq, beq_iff_eq, not_or] at hu
      exact .unit hu.1 (fun hclose => absurd hclose hu.2) ih

/-- A template that is written out reaches its end, with the arguments in place. -/
theorem reaches_write (template : Template)
    (hnames : ∀ name, .argument name ∈ template → IsPlainName name) :
    Reaches arguments (write template) (fill arguments template) [] := by
  induction template with
  | nil => exact .here
  | cons segment template ih =>
    have hrest := ih fun name hmem => hnames name (List.mem_cons_of_mem segment hmem)
    cases segment with
    | literal t => exact reaches_doubled t hrest
    | argument name =>
      obtain ⟨hopen, hclose⟩ := hnames name List.mem_cons_self
      rw [write, List.cons_append]
      exact .argument (fun hhead => hopen (List.mem_of_mem_head? hhead)) hclose hrest

/-- Every text is read to its end, or to a brace that has none. -/
theorem exists_reaches (arguments : Arguments) (text : Text) :
    ∃ written rest, Reaches arguments text written rest ∧
      (rest = [] ∨ ∃ tail, rest = openBrace :: tail ∧ IsUnclosed tail) := by
  induction hlength : text.length using Nat.strongRecOn generalizing text with
  | _ n ih =>
  -- what is left behind a piece is shorter
  have hshorter : ∀ t : Text, t.length < n → ∃ written rest, Reaches arguments t written rest ∧
      (rest = [] ∨ ∃ tail, rest = openBrace :: tail ∧ IsUnclosed tail) :=
    fun t ht => ih t.length ht t rfl
  cases text with
  | nil => exact ⟨[], [], .here, .inl rfl⟩
  | cons u text =>
    rw [List.length_cons] at hlength
    by_cases hopen : u = openBrace
    · subst hopen
      by_cases hhead : text.head? = some openBrace
      · obtain ⟨text, rfl⟩ := List.head?_eq_some_iff.mp hhead
        rw [List.length_cons] at hlength
        obtain ⟨written, rest, h, hend⟩ := hshorter text (by omega)
        exact ⟨_, rest, .brace (.inl rfl) h, hend⟩
      · by_cases hclose : closeBrace ∈ text
        · obtain ⟨name, text, rfl, hname⟩ := List.eq_append_cons_of_mem hclose
          rw [List.length_append, List.length_cons] at hlength
          have hname' : name.head? ≠ some openBrace := by
            rintro hopen
            obtain ⟨name, rfl⟩ := List.head?_eq_some_iff.mp hopen
            exact hhead rfl
          obtain ⟨written, rest, h, hend⟩ := hshorter text (by omega)
          exact ⟨_, rest, .argument hname' hname h, hend⟩
        · exact ⟨[], _, .here, .inr ⟨text, rfl, hhead, hclose⟩⟩
    · by_cases hdouble : u = closeBrace ∧ text.head? = some closeBrace
      · obtain ⟨rfl, hhead⟩ := hdouble
        obtain ⟨text, rfl⟩ := List.head?_eq_some_iff.mp hhead
        rw [List.length_cons] at hlength
        obtain ⟨written, rest, h, hend⟩ := hshorter text (by omega)
        exact ⟨_, rest, .brace (.inr rfl) h, hend⟩
      · obtain ⟨written, rest, h, hend⟩ := hshorter text (by omega)
        exact ⟨_, rest, .unit hopen (fun hu hhead => hdouble ⟨hu, hhead⟩) h, hend⟩

/--
A template that is written out, with any literal texts and with names without braces, is filled: its
literals and the values of its names follow one another as they are. A text that is read up to a brace
without an end is left as it is, whatever has been written before. Every text is read so far, or to its
end, and is then rendered as what has been written.
-/
theorem render_write (arguments : Arguments) :
    (∀ template : Template, (∀ name, .argument name ∈ template → IsPlainName name) →
      render arguments (write template) = fill arguments template) ∧
    (∀ text written tail, Reaches arguments text written (openBrace :: tail) → IsUnclosed tail →
      render arguments text = text) ∧
    ∀ text, ∃ written rest, Reaches arguments text written rest ∧
      (rest = [] ∧ render arguments text = written ∨
        ∃ tail, rest = openBrace :: tail ∧ IsUnclosed tail) := by
  constructor
  · intro template hnames
    exact (reaches_write template hnames).render_eq
  constructor
  · intro text written tail h htail
    exact h.render_eq_self htail
  · intro text
    obtain ⟨written, rest, h, hend⟩ := exists_reaches arguments text
    refine ⟨written, rest, h, ?_⟩
    rcases hend with rfl | hend
    · exact .inl ⟨rfl, h.render_eq⟩
    · exact .inr hend

/-- A value that looks like a name, a name without a value, and a brace without an end behind both. -/
theorem render_write_nested :
    (∀ name, Segment.argument name ∈
        [.literal "\x7ba\x7d", .argument "x", .literal "\x7d", .argument "y"] → IsPlainName name) ∧
    render [("x", .text "\x7by\x7d")] "\x7b\x7ba\x7d\x7d\x7bx\x7d\x7d\x7d\x7by\x7d"
      = "\x7ba\x7d\x7by\x7d\x7d" ∧
    Reaches [("x", .text "\x7by\x7d")] "\x7bx\x7d\x7by" "\x7by\x7d" "\x7by" ∧
    IsUnclosed "y" ∧ render [("x", .text "\x7by\x7d")] "\x7bx\x7d\x7by" = "\x7bx\x7d\x7by" := by
  have hnames : ∀ name, Segment.argument name ∈
      [.literal "\x7ba\x7d", .argument "x", .literal "\x7d", .argument "y"] → IsPlainName name := by
    intro name hmem
    simp only [List.mem_cons, Segment.argument.injEq, reduceCtorEq, List.not_mem_nil, false_or,
      or_false] at hmem
    rcases hmem with rfl | rfl <;> decide
  have hname : List.head? ("x" : Text) ≠ some openBrace ∧ closeBrace ∉ ("x" : Text) := by decide
  -- an argument's own braces are written as they are
  have hreaches : Reaches [("x", .text "\x7by\x7d")] "\x7bx\x7d\x7by" "\x7by\x7d" "\x7by" :=
    .argument hname.1 hname.2 .here
  have htail : IsUnclosed "y" := by decide
  exact ⟨hnames, (render_write _).1 _ hnames, hreaches, htail,
    (render_write _).2.1 _ _ _ hreaches htail⟩

end GDScript.Template
