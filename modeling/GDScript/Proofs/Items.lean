import GDScript.Proofs.Bodies

/-!
# Every line of a script

`Block.Every P block` says that each line of a block has a property, and each line of every block in it.
What `lineItem` always finds, where the indentation of its line has been taken and so no space is ahead,
every line of a script is (`Script.every_of_parse`): a block takes its lines from such a place, and so
does a line its items.
-/

namespace GDScript

open Grammar

/-- Behind its indentation a text does not start with a space. -/
theorem Text.avoids_drop_indentation {t : Text} {level : Nat} (h : t.indentation = level) :
    Text.Avoids (· == CodeUnit.space) (t.drop level) := by
  subst h
  rw [indentation, drop_length_takeWhile]
  exact avoids_dropWhile _ _

/-- Each line of the block has the property, and each line of every block in it. -/
inductive Block.Every (P : Line → Prop) : Block → Prop where
  | mk {block : Block} (lines : ∀ l ∈ block, P l)
      (bodies : ∀ l ∈ block, ∀ body ∈ l.bodies, Every P body) : Every P block

namespace Block.Every

variable {P : Line → Prop} {lines more : Block}

theorem nil : Every P [] := .mk (fun _ h => absurd h List.not_mem_nil) fun _ h => absurd h List.not_mem_nil

theorem append (h : Every P lines) (h' : Every P more) : Every P (lines ++ more) := by
  cases h with
  | mk hlines hbodies =>
    cases h' with
    | mk hlines' hbodies' =>
      exact .mk (fun l hl => (List.mem_append.mp hl).elim (hlines l) (hlines' l))
        fun l hl => (List.mem_append.mp hl).elim (hbodies l) (hbodies' l)

theorem singleton {l : Line} (h : P l) (hbodies : ∀ body ∈ l.bodies, Every P body) :
    Every P [l] :=
  .mk (fun _ hl => List.mem_singleton.mp hl ▸ h) fun _ hl => List.mem_singleton.mp hl ▸ hbodies

end Block.Every

/-- Where its indentation has been taken, every item of a text has the property; every comment has it. -/
structure Line.IsOfItems (source : Text) (P : Line → Prop) : Prop where
  item : ∀ (room indent : Nat) (c : Cursor), c.IsIn source → c.ahead.Avoids (· == CodeUnit.space) →
    Yields room (Script.lineItem indent) c fun l _ => P l
  comment : ∀ (text : Text) (span : Span), P (.comment text span)

/-- The lines that a rule finds have the property, and the lines of every block in what it finds. -/
def Rule.LinesHave (P : Line → Prop) : {α : Type} → Rule α → Cursor → α → Prop
  | _, .file, _, lines | _, .block _ _, _, lines => Block.Every P lines
  | _, .line _, c, items => c.ahead.Avoids (· == CodeUnit.space) → Block.Every P items
  | _, rule, _, v => rule.BodiesHave (Block.Every P) v

/-- The lines that the rules find in the text have the property. -/
def Rule.AllLinesHave (source : Text) (room : Nat) (P : Line → Prop) : Prop :=
  ∀ {α : Type} (rule : Rule α) (c : Cursor),
    Yields room (call rule) c fun v _ => c.IsIn source → rule.LinesHave P c v

section Rules

variable {source : Text} {room : Nat} {c : Cursor} {P : Line → Prop}

theorem Rule.AllLinesHave.allBodiesHave (hrules : Rule.AllLinesHave source room P) :
    Rule.AllBodiesHave source room (Block.Every P) := by
  intro α rule c hc
  refine (hrules rule c).mono fun v c' h => ?_
  cases rule with
  | file | block | line => trivial
  | _ => exact h hc

namespace Script

/-- No space is ahead behind the gap between two items. -/
theorem yields_skipSpaces_avoids : Yields room (skipSpaces : Grammar Rule Unit) c
    fun _ c' => c'.ahead.Avoids (· == CodeUnit.space) := by
  refine yields_read fun _ n hread => ?_
  cases hread
  rw [Cursor.ahead_advanceBy, Text.gapLength, Text.drop_length_takeWhile]
  refine (Text.avoids_dropWhile CodeUnit.isSpace c.ahead).imp fun u hu => ?_
  rw [CodeUnit.isSpace, hu, Bool.true_or]

variable (hrules : Rule.AllLinesHave source room P) (hP : Line.IsOfItems source P)

include hrules hP

theorem yields_lineItem_every (indent : Nat) (hc : c.IsIn source)
    (hspace : c.ahead.Avoids (· == CodeUnit.space)) :
    Yields room (lineItem indent) c fun l _ => Block.Every P [l] := by
  have hbodies : Yields room (lineItem indent) c fun l _ => ∀ body ∈ l.bodies, Block.Every P body := by
    refine yields_here_bind (yields_choice fun g hg => ?_)
    simp only [List.mem_cons, List.not_mem_nil, or_false] at hg
    rcases hg with rfl | rfl | rfl
    · refine ((hrules (.decl indent) c).mono fun _ _ h => h hc).bind fun d c' hd => ?_
      exact yields_here_bind (yields_pure hd)
    · refine ((hrules (.stmt indent) c).mono fun _ _ h => h hc).bind fun s c' hs => ?_
      exact yields_here_bind (yields_pure hs)
    · refine (yields_reaches room _ c).bind fun e c' _ => ?_
      exact yields_here_bind (yields_pure fun _ h => absurd h List.not_mem_nil)
  exact ((hP.item room indent c hc hspace).and hbodies).mono fun l c' h => .singleton h.1 h.2

/-- Behind a semicolon the gap is skipped, so an item is read where no space is ahead. -/
theorem yields_line_every (indent : Nat) (hc : c.IsIn source)
    (hspace : c.ahead.Avoids (· == CodeUnit.space)) :
    Yields room (line indent) c fun items _ => Block.Every P items := by
  rw [line_eq]
  refine ((yields_lineItem_every hrules hP indent hc hspace).and (yields_reaches room _ c)).bind ?_
  rintro first c₁ ⟨hfirst, h₁⟩
  refine Yields.bind (P := fun items _ => Block.Every P items.reverse) ?_ fun _ _ h => yields_pure h
  -- with it goes that the cursor stays within the source
  suffices h : Yields room (iterate (lineTurn indent) [first]) c₁ fun items c' =>
      Block.Every P items.reverse ∧ c'.IsIn source from h.mono fun _ _ h => h.1
  refine Yields.iterate ⟨hfirst, hc.reaches h₁⟩ fun items c₂ ⟨hitems, hc₂⟩ => ?_
  refine Yields.and ?_ ((yields_reaches room _ c₂).mono fun _ _ h => hc₂.reaches h)
  refine (yields_reaches room _ c₂).bind fun _ c₃ h₃ => ?_
  refine (yields_reaches room _ c₃).bind fun _ c₄ h₄ => yields_look_bind ?_
  split
  · exact yields_pure hitems
  refine (yields_reaches room _ c₄).bind fun found c₅ h₅ => ?_
  split
  · refine (yields_skipSpaces_avoids.and (yields_reaches room _ c₅)).bind fun _ c₆ ⟨hspace₆, h₆⟩ => ?_
    have hc₆ := hc₂.reaches (((h₃.trans h₄).trans h₅).trans h₆)
    refine yields_look_bind ?_
    split
    · exact yields_pure hitems
    · refine (yields_lineItem_every hrules hP indent hc₆ hspace₆).bind fun item _ hitem => ?_
      refine yields_pure ?_
      rw [Next.state, List.reverse_cons]
      exact hitems.append hitem
  · exact yields_expected

/-- A block takes the spaces of its level from lines of that indentation. -/
theorem yields_blockLine_every (level : Nat) (required : Bool) (hc : c.IsIn source) :
    Yields room (blockLine level required) c fun found _ => Block.Every P (found.getD []) := by
  have hcomment : Yields room commentLine (passOver level c) fun l _ => Block.Every P [l] := by
    refine (yields_reaches room _ _).bind fun _ c₁ _ => yields_here_bind ?_
    refine (yields_reaches room _ c₁).bind fun text c₂ _ => yields_here_bind (yields_pure ?_)
    exact .singleton (hP.comment _ _) fun _ h => absurd h List.not_mem_nil
  -- the indentation is taken in full, so no space is in front of the item
  have hline : (passOver level c).ahead.indentation = level → Yields room (call (Rule.line level))
      ((passOver level c).advanceBy level) fun items _ => Block.Every P items := by
    intro hlevel
    have hin := (hc.reaches (reaches_passOver level c)).advanceBy level
    refine (hrules (.line level) _).mono fun items _ h => h hin ?_
    rw [Cursor.ahead_advanceBy]
    exact Text.avoids_drop_indentation hlevel
  refine yields_of_leads fun journal => leads_blockLine (fun _ => .nil)
    (fun _ => leads_of_yields hcomment) (fun _ _ _ => .nil)
    (fun _ _ hlevel => leads_of_yields (hline hlevel))
    fun _ _ hlevel => leads_of_yields (Yields.attempt (hline hlevel) .nil)

theorem yields_block_every (level : Nat) (required : Bool) (hc : c.IsIn source) :
    Yields room (block level required) c fun lines _ => Block.Every P lines := by
  rw [block_eq]
  refine Yields.bind (P := fun (lines : Block) _ => Block.Every P lines.reverse) ?_
    fun _ _ h => yields_pure h
  -- the lines found so far stand in reverse
  suffices h : Yields room (iterate (blockTurn level required) []) c fun lines c' =>
      Block.Every P (List.reverse lines) ∧ c'.IsIn source from h.mono fun _ _ h => h.1
  refine Yields.iterate ⟨.nil, hc⟩ fun lines c₁ ⟨hlines, hc₁⟩ => ?_
  refine Yields.and ?_ ((yields_reaches room _ c₁).mono fun _ _ h => hc₁.reaches h)
  refine (yields_blockLine_every hrules hP level _ hc₁).bind fun found c₂ hfound => ?_
  cases found with
  | none => exact yields_pure hlines
  | some more =>
    refine yields_pure ?_
    rw [Next.state, List.reverse_append, List.reverse_reverse]
    exact hlines.append hfound

omit hP in
theorem yields_file_every (hc : c.IsIn source) :
    Yields room file c fun lines _ => Block.Every P lines := by
  refine ((hrules (.block 0 false) c).mono fun _ _ h => h hc).bind fun lines c₁ hlines => ?_
  refine (yields_reaches room _ c₁).bind fun ended c₂ _ => ?_
  split
  · exact yields_pure hlines
  · exact Yields.blame ((yields_reaches room _ c₂).bind fun _ c₃ _ =>
      yields_read fun _ n hread => absurd hread (by simp [trailing]))

end Script

/-- Every rule finds lines that have the property, with any room. -/
theorem Rule.allLinesHave (hP : Line.IsOfItems source P) (room : Nat) :
    Rule.AllLinesHave source room P := by
  refine fun {α} => yields_call_of_bodies
    (S := fun rule c v _ => c.IsIn source → Rule.LinesHave P rule c v) ?_ room
  intro room hrules α rule c
  by_cases hc : c.IsIn source
  · refine Yields.mono (P := fun v _ => rule.LinesHave P c v) ?_ fun _ _ h _ => h
    have hindented : ∀ header, FindsIn source room (Script.indentedBlock header) (Block.Every P) :=
      fun header => FindsIn.after fun level c hc =>
        (hrules (.block level true) c).mono fun _ _ h => h hc
    cases rule with
    | file => exact Script.yields_file_every hrules hc
    | block level required => exact Script.yields_block_every hrules hP level required hc
    | line indent =>
      by_cases hspace : c.ahead.Avoids (· == CodeUnit.space)
      · exact (Script.yields_line_every hrules hP indent hc hspace).mono fun _ _ h _ => h
      · -- nothing is said of an item behind a space
        exact fun _ _ _ _ _ _ h => absurd h hspace
    | _ => exact Rule.findsIn_body (Rule.AllLinesHave.allBodiesHave hrules) hindented _ c hc
  · exact fun _ _ _ _ _ _ hin => absurd hin hc

/-- What every item and every comment of a text is, every line of the script is. -/
theorem Script.every_of_parse {depth : Option Int} {block : Block}
    (hP : Line.IsOfItems source P) (h : parse source depth = .ok block) : block.Every P := by
  obtain ⟨-, hevery⟩ := exists_found_of_parse h fun room => Rule.allLinesHave hP room .file _
  exact hevery (Cursor.isIn_ofText source)

end Rules

end GDScript
