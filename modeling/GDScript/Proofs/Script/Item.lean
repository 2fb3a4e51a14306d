import GDScript.Grammar.Language
import GDScript.Proofs.Expression.RoundTrip
import GDScript.Proofs.Script.Written

/-!
# Where items start and end

An item of a line starts with a word or with an expression, and the rules that are tried before its
own refuse it by that. Behind it there is a gap, and then the line ends, a comment starts or a
semicolon stands. Some items take the gap behind them and others leave it, so what is read of an
item is said up to a gap (`Grammar.TakesToGap`).
-/

namespace GDScript

open Grammar
open Text (IsGap IsName IsChain EndsExpr)

/-! ### What follows an item -/

namespace Statement

theorem avoids_of_endsItem {t : Text} {p : CodeUnit → Bool} (h : endsItem t = true)
    (hp : ∀ u ∈ ([0x0A, 0x0D, 0x23, 0x3B] : Text), p u = false) : t.Avoids p := by
  cases t with
  | nil => rfl
  | cons u t =>
    have hu : ((u == 0x0A || u == 0x0D) || ((0x23 == u) && true) || ((0x3B == u) && true)) = true := h
    simp only [Bool.and_true, Bool.or_eq_true, beq_iff_eq] at hu
    refine hp u ?_
    rcases hu with ((rfl | rfl) | rfl) | rfl <;> decide

/-- An expression ends before a gap behind which an item ends. -/
theorem endsExpr_of_endsItem {g t : Text} {level : Nat} (hg : IsGap false g)
    (h : endsItem t = true) : EndsExpr false level (g ++ t) := by
  refine endsExpr_gap hg (avoids_of_endsItem h (by decide))
    (fun _ => avoids_of_endsItem h (by decide)) fun k hk _ => ?_
  exact Spelling.find?_binaryTable_eq_none (avoids_of_endsItem h (by decide)) hk

theorem avoids_isIdentifierChar_of_endsItem {g t : Text} (hg : IsGap false g)
    (h : endsItem t = true) : (g ++ t).Avoids CodeUnit.isIdentifierChar :=
  have hends : EndsExpr false 0 (g ++ t) := endsExpr_of_endsItem hg h
  hends.word

end Statement

/-- A written expression is read where nothing goes on with it. -/
theorem Expr.Written.takes {room n : Nat} {b : Bool} {e : Expr} {s rest : Text}
    (h : e.Written room b 0 s) (hn : (n != 0) = b) (hrest : EndsExpr b 0 rest) :
    Takes (room + 1) n Expression.expr s rest (· = e) := by
  subst hn
  exact Expression.takes_written List.mem_cons_self h hrest

theorem Text.Avoids.append {p : CodeUnit → Bool} {s : Text} (h : s.Avoids p) (hne : s ≠ [])
    {t : Text} : (s ++ t).Avoids p := by
  cases s with
  | nil => exact absurd rfl hne
  | cons u s => exact h

/-- What stands behind a gap is of a class that the gap is not of. -/
theorem Text.IsGap.avoids_append {b : Bool} {g t : Text} {p : CodeUnit → Bool} (hg : IsGap b g)
    (hp : ∀ u, u.startsGap true = true → p u = false) (ht : t.Avoids p) : (g ++ t).Avoids p := by
  by_cases hne : g = []
  · rwa [hne]
  · refine ((hg.startsWith hne).append t).avoids fun u hu => ?_
    rw [← Bool.not_eq_true]
    intro hgap
    rw [hp u (Text.startsGap_true_of hgap)] at hu
    exact Bool.noConfusion hu

/-- A text that starts with a unit of a class does not start with a sign of another one. -/
theorem Text.StartsWith.avoids_sign {p : CodeUnit → Bool} {s : Text} {c : CodeUnit}
    (h : s.StartsWith p) (hc : p c = false) : s.Avoids (· == c) :=
  h.avoids fun _ hu => by rwa [beq_iff_eq.mp hu]

/-- Behind a gap a word goes on only where nothing stands in the gap. -/
theorem Text.IsGap.endsWord {b : Bool} {g t : Text} (hg : IsGap b g)
    (ht : t.Avoids CodeUnit.isIdentifierChar) : (g ++ t).Avoids CodeUnit.isIdentifierChar :=
  hg.avoids_append (fun _ => CodeUnit.isIdentifierChar_eq_false_of_startsGap) ht

/-- A gap does not start with a sign. -/
theorem Text.IsGap.avoids_sign {b : Bool} {g t : Text} {c : CodeUnit} (hg : IsGap b g)
    (hc : c.startsGap true = false) (ht : t.Avoids (· == c)) : (g ++ t).Avoids (· == c) :=
  hg.avoids_append (fun _ hu => Expression.beq_eq_false_of_class hu hc) ht

/-- A gap that is not empty ends a word. -/
theorem Text.IsGap.avoids_isIdentifierChar {b : Bool} {g : Text} (hg : IsGap b g) (hne : g ≠ [])
    (t : Text) : (g ++ t).Avoids CodeUnit.isIdentifierChar :=
  (Phrase.startsWith_of_isGap hg hne).avoids fun u hu => by rw [hu]; rfl

/-! ### Taking up to a gap -/

namespace Grammar

variable {R : Type → Type} [RuleSet R] {α : Type} {room n : Nat} {g : Grammar R α}
  {s gap rest : Text} {P Q : α → Prop}

/-- The grammar takes the text, and leaves the gap behind it or takes it as well. -/
def TakesToGap (room n : Nat) (g : Grammar R α) (s gap rest : Text) (P : α → Prop) : Prop :=
  Takes room n g s (gap ++ rest) P ∨ Takes room n g (s ++ gap) rest P

theorem Takes.toGap (h : Takes room n g s (gap ++ rest) P) : TakesToGap room n g s gap rest P :=
  .inl h

theorem Takes.pastGap (h : Takes room n g (s ++ gap) rest P) : TakesToGap room n g s gap rest P :=
  .inr h

theorem TakesToGap.mono (h : TakesToGap room n g s gap rest P) (hPQ : ∀ v, P v → Q v) :
    TakesToGap room n g s gap rest Q :=
  h.imp (fun h => h.mono hPQ) fun h => h.mono hPQ

/-- What holds of one grammar holds of another one that takes the same part of the gap. -/
theorem TakesToGap.lift {β : Type} {b : Bool} {room' n' : Nat} {g' : Grammar R β} {s' : Text}
    {P' : β → Prop} (h : TakesToGap room n g s gap rest P) (hgap : IsGap b gap)
    (hf : ∀ taken left, gap = taken ++ left → IsGap b left →
      Takes room n g (s ++ taken) (left ++ rest) P →
        Takes room' n' g' (s' ++ taken) (left ++ rest) P') :
    TakesToGap room' n' g' s' gap rest P' := by
  rcases h with h | h
  · -- nothing of the gap is taken
    have htakes := hf [] gap rfl hgap (by rwa [List.append_nil])
    rw [List.append_nil] at htakes
    exact htakes.toGap
  · exact (hf gap [] (List.append_nil gap).symm (Text.isGap_nil b) h).pastGap

/-- The gap in two parts, of which the first one is taken. -/
theorem TakesToGap.exists_left {b : Bool} (h : TakesToGap room n g s gap rest P)
    (hgap : IsGap b gap) :
    ∃ taken left, gap = taken ++ left ∧ IsGap b left ∧
      Takes room n g (s ++ taken) (left ++ rest) P := by
  rcases h with h | h
  · exact ⟨[], gap, rfl, hgap, by rwa [List.append_nil]⟩
  · exact ⟨gap, [], by rw [List.append_nil], Text.isGap_nil b, h⟩

end Grammar

/-! ### Words -/

namespace Text

/-- The text opens with the word. -/
def Opens (word t : Text) : Prop := ∃ r : Text, t = word ++ r ∧ r.Avoids CodeUnit.isIdentifierChar

variable {word t : Text}

theorem Opens.startsWord_eq_false {w : Text} (h : Opens word t) (hword : IsName word)
    (hw : IsName w) (hne : word ≠ w) : startsWord w t = false := by
  obtain ⟨r, rfl, hr⟩ := h
  exact Phrase.startsWord_name_append hw hword hr hne

/-- A unit that a value starts with is one that code may start with. -/
theorem startsGap_eq_false_of_startsOperand {u : CodeUnit} (h : u.startsOperand = true) :
    u.startsGap true = false := by
  rw [← Bool.not_eq_true]
  intro hgap
  rw [CodeUnit.startsOperand_eq_false_of_startsGap hgap] at h
  exact Bool.noConfusion h

theorem StartsWith.startsCode (h : t.StartsWith CodeUnit.startsOperand) : t.StartsCode :=
  h.imp fun u hu => by rw [startsGap_eq_false_of_startsOperand hu]; rfl

theorem StartsWith.avoids_startsGap (h : t.StartsWith CodeUnit.startsOperand) (b : Bool)
    (rest : Text) : (t ++ rest).Avoids (CodeUnit.startsGap b) :=
  (h.append rest).avoids fun _ hu =>
    CodeUnit.startsOperand_eq_false_of_startsGap (startsGap_true_of hu)

theorem startsOperand_of_startsName (h : t.startsName = true) :
    t.StartsWith CodeUnit.startsOperand :=
  StartsWith.imp (p := CodeUnit.isIdentifierStart) h fun _ hu =>
    CodeUnit.startsOperand_of_startsValue (CodeUnit.startsValue_of_isIdentifierStart hu)

theorem IsName.startsOperand (h : IsName t) : t.StartsWith CodeUnit.startsOperand :=
  startsOperand_of_startsName h.1

theorem IsChain.startsOperand {separator : CodeUnit} (h : IsChain separator t) :
    t.StartsWith CodeUnit.startsOperand :=
  startsOperand_of_startsName h.startsName

theorem Opens.startsCode (h : Opens word t) (hword : IsName word) : t.StartsCode := by
  obtain ⟨r, rfl, -⟩ := h
  exact (hword.startsOperand.append r).startsCode

end Text

namespace Grammar

variable {R : Type → Type} [RuleSet R] {α β : Type} {room n : Nat} {word : α → Text}
  {choices : List α} {s t rest : Text}

theorem find?_startsWord {m : α} (hnames : ∀ c ∈ choices, IsName (word c))
    (hinj : ∀ c ∈ choices, word m = word c → m = c) (hm : m ∈ choices)
    (hrest : rest.Avoids CodeUnit.isIdentifierChar) :
    choices.find? (fun c => Text.startsWord (word c) (word m ++ rest)) = some m := by
  induction choices with
  | nil => exact absurd hm List.not_mem_nil
  | cons c choices ih =>
    have hc := Text.startsWord_append_iff (hnames c List.mem_cons_self) (hnames m hm) hrest
    rw [List.find?_cons]
    -- the first choice with the word is the modifier itself, since no two have the same word
    by_cases heq : word m = word c
    · rw [hinj c List.mem_cons_self heq, Text.startsWord_append_self hrest]
    · have hother : ¬Text.startsWord (word c) (word m ++ rest) = true := fun h => heq (hc.mp h)
      rw [Bool.not_eq_true] at hother
      rw [hother]
      refine ih (fun c' hc' => hnames c' (List.mem_cons_of_mem c hc'))
        (fun c' hc' => hinj c' (List.mem_cons_of_mem c hc')) ?_
      rcases List.mem_cons.mp hm with rfl | hm
      · exact absurd rfl heq
      · exact hm

theorem takes_oneOf {m : α} (hnames : ∀ c, IsName (word c)) (hinj : ∀ c c', word c = word c' → c = c')
    (hm : m ∈ choices) (hrest : rest.Avoids CodeUnit.isIdentifierChar) :
    Takes room n (read (Reader.oneOf word choices) : Grammar R (Option α)) (word m) rest
      (· = some m) := by
  refine takes_read ?_ rfl
  rw [Reader.oneOf, find?_startsWord (fun c _ => hnames c) (fun c _ => hinj m c) hm hrest]

theorem takes_oneOf_nothing (hnone : ∀ c ∈ choices, Text.startsWord (word c) rest = false) :
    Takes room n (read (Reader.oneOf word choices) : Grammar R (Option α)) [] rest
      (· = none) := by
  have hfind : choices.find? (fun c => Text.startsWord (word c) rest) = none :=
    List.find?_eq_none.mpr fun c hc => by rw [hnone c hc]; exact Bool.false_ne_true
  refine takes_read ?_ rfl
  rw [List.nil_append, Reader.oneOf, hfind]
  rfl

/-- A modifier is found with the gap behind it; where none of the words is ahead, nothing is. -/
theorem takes_modified {f : Option α → Grammar R β} {m : Option α} {P : β → Prop}
    (h : Text.Modified word m s) (hall : ∀ c, c ∈ choices) (hnames : ∀ c, IsName (word c))
    (hinj : ∀ c c', word c = word c' → c = c') (hspace : (t ++ rest).Avoids CodeUnit.isSpace)
    (hnone : ∀ c, Text.startsWord (word c) (t ++ rest) = false)
    (hf : Takes room n (f m) t rest P) :
    Takes room n (do
      let modifier ← read (Reader.oneOf word choices)
      skipSpaces
      f modifier) (s ++ t) rest P := by
  cases h with
  | none =>
    refine Takes.look_bind (takes_oneOf_nothing fun c _ => hnone c) fun found hfound => ?_
    rw [hfound, List.nil_append]
    exact Takes.look_bind (takes_skipSpaces (Text.isGap_nil false) hspace) fun _ _ => hf
  | @some m g hg hne =>
    rw [List.append_assoc]
    refine Takes.bind (takes_oneOf hnames hinj (hall m) ?_) fun found hfound => ?_
    · rw [List.append_assoc]
      exact hg.avoids_isIdentifierChar hne _
    · rw [hfound]
      exact Takes.bind (takes_skipSpaces hg hspace) fun _ _ => hf

theorem refuses_modified {f : Option α → Grammar R β}
    (hnone : ∀ c ∈ choices, Text.startsWord (word c) t = false) (hspace : t.Avoids CodeUnit.isSpace)
    (hf : Refuses room n (f none) t) :
    Refuses room n (do
      let modifier ← read (Reader.oneOf word choices)
      skipSpaces
      f modifier) t := by
  refine Takes.refuses_bind (s := []) (takes_oneOf_nothing hnone) fun found hfound => ?_
  rw [hfound]
  exact Takes.refuses_bind (s := []) (takes_skipSpaces (Text.isGap_nil false) hspace) fun _ _ => hf

end Grammar

end GDScript
