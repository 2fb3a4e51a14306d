import GDScript.Reader.Word
import Mathlib.Data.List.TakeWhile
import Mathlib.Tactic.ByContra

/-!
# Names, words and chains of names

`Text.IsName` and `Text.IsChain` say what an identifier and a chain of identifiers are, without
saying how they are read. A reader finds a lexeme where the lexeme is ahead and what follows does
not go on with it (`identifier?_append`, `chain?_append`), and what it finds is a lexeme that is
ahead (`isName_of_identifier?`, `isChain_of_chain?`). A word is ahead exactly when it is the
identifier that is ahead (`startsWord_iff`).
-/

namespace GDScript.Text

/-! ### Runs of units -/

/-- What holds of all units of a text is decided along the text, and not over all of the units. -/
instance decidableForallUnit (p : CodeUnit → Prop) [DecidablePred p] (t : Text) :
    Decidable (∀ u ∈ t, p u) :=
  List.decidableBAll p t

/-- The next unit, if there is one, is not of the class. -/
def Avoids (p : CodeUnit → Bool) (t : Text) : Prop := t.head?.any p = false

instance (p : CodeUnit → Bool) (t : Text) : Decidable (Avoids p t) :=
  inferInstanceAs (Decidable (_ = false))

@[simp] theorem avoids_nil (p : CodeUnit → Bool) : Avoids p [] := rfl

@[simp] theorem avoids_cons {p : CodeUnit → Bool} {u : CodeUnit} {t : Text} :
    Avoids p (u :: t) ↔ p u = false := Iff.rfl

/-- What holds of no unit of a wider class holds of no unit of a narrower one. -/
theorem Avoids.imp {p q : CodeUnit → Bool} {t : Text} (h : Avoids p t)
    (hpq : ∀ u, q u = true → p u = true) : Avoids q t := by
  cases t with
  | nil => rfl
  | cons u t =>
    rw [avoids_cons] at h ⊢
    by_contra hq
    rw [Bool.not_eq_false] at hq
    rw [hpq u hq] at h
    exact Bool.noConfusion h

theorem avoids_dropWhile (p : CodeUnit → Bool) (t : Text) : Avoids p (t.dropWhile p) := by
  induction t with
  | nil => rfl
  | cons u t ih =>
    rw [List.dropWhile_cons]
    split
    · exact ih
    · next hu => exact eq_false_of_ne_true hu

theorem drop_length_takeWhile (p : CodeUnit → Bool) (t : Text) :
    t.drop (t.takeWhile p).length = t.dropWhile p := by
  have h : (t.takeWhile p ++ t.dropWhile p).drop (t.takeWhile p).length = t.dropWhile p :=
    List.drop_left
  rwa [List.takeWhile_append_dropWhile] at h

/-- A run of units of a class, which what follows does not go on. -/
theorem takeWhile_append {p : CodeUnit → Bool} {s rest : Text} (hs : ∀ u ∈ s, p u = true)
    (hrest : Avoids p rest) : (s ++ rest).takeWhile p = s := by
  rw [List.takeWhile_append_of_pos hs]
  cases rest with
  | nil => simp
  | cons u rest => simp [avoids_cons.mp hrest]

theorem dropWhile_append {p : CodeUnit → Bool} {s rest : Text} (hs : ∀ u ∈ s, p u = true)
    (hrest : Avoids p rest) : (s ++ rest).dropWhile p = rest := by
  rw [List.dropWhile_append_of_pos hs]
  cases rest with
  | nil => rfl
  | cons u rest => simp [avoids_cons.mp hrest]

/-- Nothing is dropped in front of another unit. -/
theorem dropWhile_of_avoids {p : CodeUnit → Bool} {t : Text} (h : t.Avoids p) : t.dropWhile p = t :=
  dropWhile_append (s := []) (by simp) h

/-- Where a unit is not of the class, what follows does not belong to the units in front of it. -/
theorem takeWhile_append_of_dropWhile {p : CodeUnit → Bool} {s : Text} (h : s.dropWhile p ≠ [])
    (t : Text) : (s ++ t).takeWhile p = s.takeWhile p := by
  induction s with
  | nil => exact absurd List.dropWhile_nil h
  | cons u s ih =>
    rw [List.cons_append, List.takeWhile_cons, List.takeWhile_cons]
    split
    · next hu =>
      rw [List.dropWhile_cons, if_pos hu] at h
      rw [ih h]
    · rfl

theorem dropWhile_append_of_dropWhile {p : CodeUnit → Bool} {s : Text} (h : s.dropWhile p ≠ [])
    (t : Text) : (s ++ t).dropWhile p = s.dropWhile p ++ t := by
  have hsplit := List.takeWhile_append_dropWhile (p := p) (l := s ++ t)
  rw [takeWhile_append_of_dropWhile h] at hsplit
  have hs := List.takeWhile_append_dropWhile (p := p) (l := s)
  conv_rhs at hsplit => rw [← hs, List.append_assoc]
  exact List.append_cancel_left hsplit

theorem takeWhile_pos {p : CodeUnit → Bool} {t : Text} : ∀ u ∈ t.takeWhile p, p u = true :=
  fun _ hu => List.mem_takeWhile_imp hu

/-! ### Names -/

/-- An identifier: a letter or underscore, and then letters, digits and underscores. -/
def IsName (s : Text) : Prop := s.startsName = true ∧ ∀ u ∈ s, u.isIdentifierChar = true

instance (s : Text) : Decidable (IsName s) := inferInstanceAs (Decidable (_ ∧ _))

theorem startsName_append {s t : Text} (h : s.startsName = true) :
    (s ++ t).startsName = true := by
  cases s with
  | nil => exact absurd h (by decide)
  | cons u s => exact h

theorem IsName.append {s t : Text} (hs : IsName s) (ht : ∀ u ∈ t, u.isIdentifierChar = true) :
    IsName (s ++ t) := by
  refine ⟨startsName_append hs.1, fun u hu => ?_⟩
  rcases List.mem_append.mp hu with hu | hu
  · exact hs.2 u hu
  · exact ht u hu

theorem identifier?_append {s rest : Text} (hs : IsName s)
    (hrest : Avoids CodeUnit.isIdentifierChar rest) : identifier? (s ++ rest) = some s := by
  rw [identifier?, if_pos (startsName_append hs.1), takeWhile_append hs.2 hrest]

/-- An identifier that is found is ahead, and what follows does not go on with it. -/
theorem isName_of_identifier? {s t : Text} (h : identifier? t = some s) :
    IsName s ∧ ∃ rest, t = s ++ rest ∧ Avoids CodeUnit.isIdentifierChar rest := by
  unfold identifier? at h
  split at h
  · next hstart =>
    obtain rfl := Option.some.inj h
    refine ⟨⟨?_, takeWhile_pos⟩, t.dropWhile CodeUnit.isIdentifierChar,
      List.takeWhile_append_dropWhile.symm, avoids_dropWhile _ _⟩
    cases t with
    | nil => exact hstart
    | cons u t =>
      have hu : u.isIdentifierStart = true := hstart
      rw [List.takeWhile_cons, if_pos (CodeUnit.isIdentifierChar_of_isIdentifierStart hu)]
      exact hu
  · exact absurd h (by simp)

/-! ### Words -/

theorem isPrefixOf_append (s t : Text) : s.isPrefixOf (s ++ t) = true :=
  List.isPrefixOf_iff_prefix.mpr (List.prefix_append s t)

theorem startsWord_append_self {w rest : Text} (hrest : Avoids CodeUnit.isIdentifierChar rest) :
    startsWord w (w ++ rest) = true := by
  rw [startsWord, isPrefixOf_append, List.drop_left, Bool.true_and, Bool.not_eq_true']
  exact hrest

/-- A word is ahead exactly when it is the identifier that is ahead. -/
theorem startsWord_iff {w t : Text} (hw : IsName w) :
    startsWord w t = true ↔ identifier? t = some w := by
  constructor
  · intro h
    rw [startsWord, Bool.and_eq_true, Bool.not_eq_true', List.isPrefixOf_iff_prefix] at h
    obtain ⟨⟨rest, rfl⟩, hrest⟩ := h
    rw [List.drop_left] at hrest
    exact identifier?_append hw hrest
  · intro h
    obtain ⟨-, rest, rfl, hrest⟩ := isName_of_identifier? h
    exact startsWord_append_self hrest

/-- Of the words, only the identifier itself is where an identifier is ahead. -/
theorem startsWord_append_iff {w s rest : Text} (hw : IsName w) (hs : IsName s)
    (hrest : Avoids CodeUnit.isIdentifierChar rest) :
    startsWord w (s ++ rest) = true ↔ s = w := by
  rw [startsWord_iff hw, identifier?_append hs hrest, Option.some.injEq]

/-- Two words are not ahead at once. -/
theorem startsWord_eq_false_of_ne {w v t : Text} (hw : IsName w) (hv : IsName v) (hne : w ≠ v)
    (h : startsWord w t = true) : startsWord v t = false := by
  rw [← Bool.not_eq_true, startsWord_iff hv]
  intro hother
  rw [(startsWord_iff hw).mp h] at hother
  exact hne (Option.some.inj hother)

/-- No word is ahead where no identifier starts. -/
theorem startsWord_eq_false {w t : Text} (hw : IsName w) (ht : t.startsName = false) :
    startsWord w t = false := by
  rw [← Bool.not_eq_true, startsWord_iff hw, identifier?, ht]
  simp

/-! ### Chains -/

/-- Identifiers with the separator between neighbours. -/
inductive IsChain (separator : CodeUnit) : Text → Prop where
  | name {s : Text} (hs : IsName s) : IsChain separator s
  | cons {s t : Text} (hs : IsName s) (ht : IsChain separator t) :
      IsChain separator (s ++ separator :: t)

variable {separator : CodeUnit}

theorem IsChain.startsName {s : Text} (h : IsChain separator s) : s.startsName = true := by
  cases h with
  | name hs => exact hs.1
  | cons hs _ => exact startsName_append hs.1

theorem chainRest_append {s t : Text} (hs : ∀ u ∈ s, u.isIdentifierChar = true) :
    chainRest separator (s ++ t) = s ++ chainRest separator t := by
  induction s with
  | nil => rfl
  | cons u s ih =>
    rw [List.cons_append, chainRest, hs u List.mem_cons_self, Bool.true_or, if_pos rfl,
      ih fun v hv => hs v (List.mem_cons_of_mem u hv), List.cons_append]

/-- The text does not go on with a chain: neither with its last name nor with another one. -/
def EndsChain (separator : CodeUnit) (t : Text) : Prop :=
  Avoids CodeUnit.isIdentifierChar t ∧ ∀ r, t = separator :: r → startsName r = false

theorem chainRest_eq_nil {t : Text} (h : EndsChain separator t) : chainRest separator t = [] := by
  cases t with
  | nil => rfl
  | cons u t =>
    have hu : u.isIdentifierChar = false := avoids_cons.mp h.1
    rw [chainRest, hu, Bool.false_or, if_neg]
    rw [Bool.and_eq_true, beq_iff_eq]
    rintro ⟨rfl, ht⟩
    rw [h.2 t rfl] at ht
    exact Bool.noConfusion ht

theorem IsChain.chainRest_append {s rest : Text} (hs : IsChain separator s)
    (hrest : EndsChain separator rest) : chainRest separator (s ++ rest) = s := by
  induction hs with
  | name hs => rw [Text.chainRest_append hs.2, chainRest_eq_nil hrest, List.append_nil]
  | cons hs ht ih =>
    rw [List.append_assoc, Text.chainRest_append hs.2, List.cons_append, chainRest, beq_self_eq_true,
      startsName_append ht.startsName, Bool.and_self, Bool.or_true, if_pos rfl, ih]

theorem chain?_append {s rest : Text} (hs : IsChain separator s)
    (hrest : EndsChain separator rest) : chain? separator (s ++ rest) = some s := by
  rw [chain?, if_pos (startsName_append hs.startsName), hs.chainRest_append hrest]

theorem chainRest_isPrefix (t : Text) : chainRest separator t <+: t := by
  induction t with
  | nil => exact List.prefix_refl _
  | cons u t ih =>
    rw [chainRest]
    split
    · exact (List.cons_prefix_cons).mpr ⟨rfl, ih⟩
    · exact List.nil_prefix

/-- What goes on with a name goes on with a chain, and what starts a name starts a chain. -/
theorem isChain_chainRest (t : Text) :
    (∀ s, IsName s → IsChain separator (s ++ chainRest separator t)) ∧
      (t.startsName = true → IsChain separator (chainRest separator t)) := by
  induction t with
  | nil => exact ⟨fun s hs => by simpa [chainRest] using .name hs, fun h => absurd h (by decide)⟩
  | cons u t ih =>
    obtain ⟨ihName, ihStart⟩ := ih
    constructor
    · intro s hs
      rw [chainRest]
      by_cases hu : u.isIdentifierChar = true
      · -- `u` goes on with the name
        rw [hu, Bool.true_or, if_pos rfl, ← List.singleton_append, ← List.append_assoc]
        exact ihName _ (hs.append (by simpa using hu))
      · rw [Bool.not_eq_true] at hu
        rw [hu, Bool.false_or]
        split
        · next hsep =>
          -- `u` is the separator before another name
          rw [Bool.and_eq_true, beq_iff_eq] at hsep
          obtain ⟨rfl, ht⟩ := hsep
          exact .cons hs (ihStart ht)
        · rw [List.append_nil]
          exact .name hs
    · intro hstart
      have hu : u.isIdentifierStart = true := hstart
      have huc := CodeUnit.isIdentifierChar_of_isIdentifierStart hu
      rw [chainRest, huc, Bool.true_or, if_pos rfl]
      exact ihName [u] ⟨hu, by simpa using huc⟩

theorem isChain_of_chain? {s t : Text} (h : chain? separator t = some s) :
    IsChain separator s ∧ ∃ rest, t = s ++ rest := by
  unfold chain? at h
  split at h
  · next hstart =>
    obtain rfl := Option.some.inj h
    obtain ⟨rest, hrest⟩ : chainRest separator t <+: t := chainRest_isPrefix t
    exact ⟨(isChain_chainRest t).2 hstart, rest, hrest.symm⟩
  · exact absurd h (by simp)

end GDScript.Text
