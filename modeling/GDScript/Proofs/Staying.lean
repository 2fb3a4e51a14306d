import GDScript.Grammar.Language
import GDScript.Proofs.Turn

/-!
# Where nothing goes on

`Grammar.Stays` says that a run finishes, whatever has been written down before. It holds where a line
has ended and the next line of code is not one that is gone on with: no further branch and no further
case is found, a line ends, and a block takes comments at most. All of them leave the next line of code
what it was.
-/

namespace GDScript

open Grammar

namespace Grammar

variable {R : Type → Type} [RuleSet R] {α β σ : Type} {room : Nat} {c : Cursor}

/-- A run finishes with `P`. -/
def Stays (room : Nat) (g : Grammar R α) (c : Cursor) (P : α → Cursor → Prop) : Prop :=
  ∀ journal, Leads room g c journal (fun v c' _ => P v c') fun _ _ => False

theorem Stays.mono {g : Grammar R α} {P Q : α → Cursor → Prop} (h : Stays room g c P)
    (hPQ : ∀ v c', P v c' → Q v c') : Stays room g c Q :=
  fun journal => (h journal).mono (fun v c' _ hv => hPQ v c' hv) fun _ _ hE => hE

theorem Stays.and_yields {g : Grammar R α} {P Q : α → Cursor → Prop} (h : Stays room g c P)
    (hQ : Yields room g c Q) : Stays room g c fun v c' => P v c' ∧ Q v c' :=
  fun journal => ((h journal).and_yields hQ).mono (fun _ _ _ hv => hv.symm) fun _ _ hE => hE

theorem stays_pure {v : α} {P : α → Cursor → Prop} (h : P v c) :
    Stays room (Pure.pure v : Grammar R α) c P :=
  fun _ => leads_pure h

theorem Stays.bind {g : Grammar R α} {f : α → Grammar R β} {P : α → Cursor → Prop}
    {Q : β → Cursor → Prop} (hg : Stays room g c P) (hf : ∀ v c', P v c' → Stays room (f v) c' Q) :
    Stays room (g >>= f) c Q :=
  fun journal => (hg journal).bind fun v c' journal' hv => hf v c' hv journal'

theorem stays_read_bind {reader : Reader α} {f : α → Grammar R β} {P : β → Cursor → Prop} {v : α}
    {n : Nat} (hread : reader c.ahead = .took v n) (h : Stays room (f v) (c.advanceBy n) P) :
    Stays room (read reader >>= f) c P := by
  refine Stays.bind (P := fun w c' => w = v ∧ c' = c.advanceBy n) (fun journal => leads_read
    (fun w m htook => ?_) fun complaint scope hfault => ?_) ?_
  · rw [hread] at htook
    cases htook
    exact ⟨rfl, rfl⟩
  · exact absurd (hread.symm.trans hfault) (by simp)
  · rintro _ _ ⟨rfl, rfl⟩
    exact h

theorem stays_here_bind {f : Location → Grammar R β} {P : β → Cursor → Prop}
    (h : Stays room (f c.location) c P) : Stays room (here >>= f) c P := by
  refine Stays.bind (P := fun place c' => place = c.location ∧ c' = c)
    (fun journal => leads_here ⟨rfl, rfl⟩) ?_
  rintro _ _ ⟨rfl, rfl⟩
  exact h

theorem Stays.loop {turn : σ → Grammar R (Next σ)} {x : σ} {P : σ → Cursor → Prop} (hx : P x c)
    (h : ∀ y c', P y c' → Stays room (turn y) c' fun next c'' => P next.state c'') :
    Stays room (iterate turn x) c P := by
  refine fun journal => Leads.loop (I := fun y c' _ => P y c') hx (fun _ _ _ hy => hy)
    fun y c' journal' hy => (h y c' hy journal').mono (fun next _ _ hnext => ?_) fun _ _ hE => hE
  cases next <;> exact hnext

end Grammar

/-! ### The next line of code -/

/-- No line is found where the next line of code is indented otherwise, or not one to accept. -/
theorem Reader.seekLine_eq_false {width : Nat} {accept : Text → Bool} {t : Text}
    (h : t.nextCode.indentation = width → accept (t.nextCode.drop width) = false) :
    Reader.seekLine width accept t = .took false 0 := by
  rw [Reader.seekLine, Text.drop_codeDistance]
  refine if_neg fun hfound => ?_
  rw [Bool.and_eq_true, beq_iff_eq] at hfound
  rw [h hfound.1] at hfound
  exact Bool.noConfusion hfound.2

section

variable {room : Nat} {c : Cursor}

namespace Statement

/-- No further branch is found. -/
theorem stays_elifTurn {indent : Nat} (found : List Condition)
    (h : c.ahead.nextCode.indentation = indent →
      Text.startsWord "elif" (c.ahead.nextCode.drop indent) = false) :
    Stays room (elifTurn indent found) c fun next c' => next = .done found ∧ c' = c := by
  refine Stays.bind (P := fun branch c' => branch = none ∧ c' = c) ?_ ?_
  · exact stays_read_bind (Reader.seekLine_eq_false h) (stays_pure ⟨rfl, rfl⟩)
  · rintro _ _ ⟨rfl, rfl⟩
    exact stays_pure ⟨rfl, rfl⟩

/-- No last branch is found. -/
theorem stays_elseBranch {indent : Nat} (h : c.ahead.nextCode.indentation = indent →
      Text.startsWord "else" (c.ahead.nextCode.drop indent) = false) :
    Stays room (elseBranch indent) c fun found c' => found = none ∧ c' = c :=
  stays_read_bind (Reader.seekLine_eq_false h) (stays_pure ⟨rfl, rfl⟩)

/-- No further case is found. -/
theorem stays_caseTurn {width : Nat} (found : List Condition)
    (h : c.ahead.nextCode.indentation ≠ width) :
    Stays room (caseTurn width found) c fun next c' => next = .done found ∧ c' = c :=
  stays_read_bind (Reader.seekLine_eq_false fun heq => absurd heq h) (stays_pure ⟨rfl, rfl⟩)

end Statement

namespace Script

/-- A line ends where it is at its end. -/
theorem stays_lineTurn (indent : Nat) (items : List Line) (h : c.ahead.atLineEnd = true) :
    Stays room (lineTurn indent items) c fun next c' => next = .done items ∧ c' = c := by
  have hgap : c.ahead.gapLength = 0 :=
    Text.gapLength_append (Text.isGap_nil false) (Text.avoids_isSpace_of_atLineEnd h)
  have hspaces : Reader.skipSpaces c.ahead = .took () 0 := by
    rw [Reader.skipSpaces, Reader.skip, hgap]
  have hcomment : Reader.comment c.ahead = .took none 0 :=
    Reader.comment_eq_none (Text.avoids_hash_of_atLineEnd h)
  have hended : Reader.atLineEnd c.ahead = .took true 0 := by
    rw [Reader.atLineEnd, Reader.look, h]
  exact stays_read_bind hspaces (stays_read_bind hcomment
    (stays_read_bind hended (stays_pure ⟨rfl, rfl⟩)))

/-- A block takes no line of code that is indented otherwise. -/
theorem stays_blockLine {level : Nat} (required : Bool) (hend : c.ahead.atLineEnd = true)
    (h : c.ahead.nextCode = [] ∨ c.ahead.nextCode.indentation ≠ level) :
    Stays room (blockLine level required) c fun _ c' =>
      c'.ahead.atLineEnd = true ∧ c'.ahead.nextCode = c.ahead.nextCode := by
  -- what the block passes over does not change the next line of code
  have hnext := nextCode_passOver level c
  have hcode : (passOver level c).ahead.isEmptyLine = false →
      (passOver level c).ahead.indentation ≠ level := by
    intro hempty
    rw [← hnext, Text.nextCode_of_isEmptyLine_eq_false hempty] at h
    refine h.resolve_left fun hnil => ?_
    rw [hnil] at hempty
    exact absurd hempty (by decide)
  refine fun journal => leads_blockLine (fun _ => ⟨hend, rfl⟩) (fun hcomment => ?_)
    (fun _ _ _ => ⟨hend, rfl⟩) (fun _ hempty hlevel => absurd hlevel (hcode hempty))
    fun _ hempty hlevel => absurd hlevel (hcode hempty)
  have hline : Leads room commentLine (passOver level c) journal (fun _ _ _ => True)
      fun _ _ => False := leads_commentLine fun _ _ => trivial
  refine (hline.and_yields (yields_commentLine_atLineEnd hcomment)).mono (fun _ c' _ hc' => ?_)
    fun _ _ hE => hE
  exact ⟨hc'.1.1, hc'.1.2.trans hnext⟩

/-- Nor does it with all the lines that it takes. -/
theorem stays_blockTurns {level : Nat} (required : Bool) (lines : Block)
    (hend : c.ahead.atLineEnd = true)
    (h : c.ahead.nextCode = [] ∨ c.ahead.nextCode.indentation ≠ level) :
    Stays room (iterate (blockTurn level required) lines) c fun _ c' =>
      c'.ahead.atLineEnd = true ∧ c'.ahead.nextCode = c.ahead.nextCode := by
  refine Stays.loop (P := fun _ c' => c'.ahead.atLineEnd = true ∧
    c'.ahead.nextCode = c.ahead.nextCode) ⟨hend, rfl⟩ fun lines c' hc' => ?_
  rw [← hc'.2] at h
  refine (stays_blockLine _ hc'.1 h).bind fun found c'' hc'' => ?_
  rw [hc'.2] at hc''
  cases found <;> exact stays_pure hc''

end Script

end

end GDScript
