import GDScript.Proofs.Lexeme.Word
import GDScript.Reader.Layout

/-!
# Comments

What is kept of a comment is what follows its `#`, without the blanks at its ends. Such a text has
no blank at either end and no line end inside (`Text.IsCommentText`), and it is kept as it is from
any comment that holds it between blanks (`Text.trim_append`).
-/

namespace GDScript

namespace Text

/-- The text is on one line, and no blank stands at its ends. -/
structure IsCommentText (t : Text) : Prop where
  start : t.Avoids CodeUnit.isBlank
  stop : Avoids CodeUnit.isBlank t.reverse
  line : ∀ u ∈ t, u.isLineEnd = false

theorem trimEnd_isPrefix (t : Text) : trimEnd t <+: t := by
  have hsuffix : trimStart t.reverse <:+ t.reverse := List.dropWhile_suffix _
  have hreverse := List.reverse_prefix.mpr hsuffix
  rwa [List.reverse_reverse] at hreverse

theorem Avoids.of_isPrefix {p : CodeUnit → Bool} {s t : Text} (h : t.Avoids p) (hs : s <+: t) :
    s.Avoids p := by
  obtain ⟨r, rfl⟩ := hs
  cases s with
  | nil => rfl
  | cons u s => exact h

/-- What is trimmed has no blank at its ends, and holds no new unit. -/
theorem isCommentText_trim {t : Text} (h : ∀ u ∈ t, u.isLineEnd = false) :
    IsCommentText (trim t) := by
  refine ⟨(avoids_dropWhile _ t).of_isPrefix (trimEnd_isPrefix _), ?_, fun u hu => h u ?_⟩
  · rw [trim, trimEnd, List.reverse_reverse]
    exact avoids_dropWhile _ _
  · have hstart : u ∈ trimStart t := (trimEnd_isPrefix _).subset hu
    exact (List.dropWhile_suffix _).subset hstart

/-- A text without blanks at its ends is what remains of it between blanks. -/
theorem trim_append {pad t pad' : Text} (h : IsCommentText t)
    (hpad : ∀ u ∈ pad, u.isBlank = true) (hpad' : ∀ u ∈ pad', u.isBlank = true) :
    trim (pad ++ t ++ pad') = t := by
  have hend : trimEnd (t ++ pad') = t := by
    rw [trimEnd, trimStart, List.reverse_append,
      dropWhile_append (fun u hu => hpad' u (List.mem_reverse.mp hu)) h.stop, List.reverse_reverse]
  by_cases hne : t = []
  · subst hne
    have hblank : ∀ u ∈ pad ++ pad', u.isBlank = true := fun u hu =>
      (List.mem_append.mp hu).elim (hpad u) (hpad' u)
    have hstart : trimStart (pad ++ pad') = [] := by
      have hall := dropWhile_append hblank (avoids_nil _)
      rwa [List.append_nil] at hall
    rw [List.append_nil, trim, hstart]
    rfl
  · have hstart : trimStart (pad ++ t ++ pad') = t ++ pad' := by
      rw [List.append_assoc]
      refine dropWhile_append hpad ?_
      cases t with
      | nil => exact absurd rfl hne
      | cons u t => exact h.start
    rw [trim, hstart, hend]

/-- A comment with blanks around its text stands on one line. -/
theorem IsCommentText.not_isLineEnd {pad t pad' : Text} (h : IsCommentText t)
    (hpad : ∀ u ∈ pad ++ pad', u.isBlank = true ∧ u.isLineEnd = false) :
    ∀ u ∈ pad ++ t ++ pad', u.isLineEnd = false := by
  intro u hu
  rcases List.mem_append.mp hu with hu | hu
  · rcases List.mem_append.mp hu with hu | hu
    · exact (hpad u (List.mem_append_left _ hu)).2
    · exact h.line u hu
  · exact (hpad u (List.mem_append_right _ hu)).2

/-- The comment at the start of a text goes up to the end of the line. -/
theorem comment?_append {c rest : Text} (hc : ∀ u ∈ c, u.isLineEnd = false)
    (hrest : rest.Avoids (!CodeUnit.isLineEnd ·)) :
    comment? (CodeUnit.hash :: (c ++ rest)) = some (CodeUnit.hash :: c) := by
  rw [comment?, if_pos (beq_self_eq_true _),
    takeWhile_append (fun u hu => by rw [hc u hu]; rfl) hrest]

theorem comment?_eq_none {t : Text} (h : t.Avoids (· == CodeUnit.hash)) : comment? t = none := by
  cases t with
  | nil => rfl
  | cons u t =>
    rw [comment?, if_neg]
    exact Bool.eq_false_iff.mp h

/-- A comment holds no line end, and one follows it or the end of the text. -/
theorem exists_of_comment? {t found : Text} (h : comment? t = some found) :
    ∃ body rest : Text, t = CodeUnit.hash :: (body ++ rest) ∧ found = CodeUnit.hash :: body ∧
      (∀ u ∈ body, u.isLineEnd = false) ∧ rest.Avoids (!CodeUnit.isLineEnd ·) := by
  cases t with
  | nil => exact absurd h (by simp [comment?])
  | cons u t =>
    rw [comment?] at h
    split_ifs at h with hhash
    obtain rfl : u = CodeUnit.hash := by simpa using hhash
    refine ⟨_, _, by rw [List.takeWhile_append_dropWhile], (Option.some.inj h).symm, ?_,
      avoids_dropWhile _ t⟩
    exact fun v hv => by simpa using takeWhile_pos v hv

/-- A line ends where no other unit comes next. -/
theorem atLineEnd_of_avoids {t : Text} (h : t.Avoids (!CodeUnit.isLineEnd ·)) :
    t.atLineEnd = true := by
  cases t with
  | nil => rfl
  | cons u t => simpa [atLineEnd] using h

/-- At the end of a line no other unit comes next. -/
theorem avoids_of_atLineEnd {t : Text} (h : t.atLineEnd = true) :
    t.Avoids (!CodeUnit.isLineEnd ·) := by
  cases t with
  | nil => rfl
  | cons u t =>
    have hend : u.isLineEnd = true := h
    rw [avoids_cons, hend]
    rfl

/-- At the end of a line no comment starts. -/
theorem avoids_hash_of_atLineEnd {t : Text} (h : t.atLineEnd = true) :
    t.Avoids (· == CodeUnit.hash) :=
  (avoids_of_atLineEnd h).imp fun u hu => by
    rw [beq_iff_eq.mp hu]
    rfl

end Text

namespace Reader

/-- The text that a comment is kept as. -/
theorem isCommentText_of_comment {t text : Text} {n : Nat}
    (h : comment t = .took (some text) n) : text.IsCommentText := by
  unfold comment at h
  cases hfound : t.comment? with
  | none =>
    rw [hfound] at h
    exact absurd h (by simp)
  | some found =>
    rw [hfound] at h
    simp only [Reading.took.injEq, Option.some.injEq] at h
    obtain ⟨rfl, -⟩ := h
    obtain ⟨body, rest, -, rfl, hbody, -⟩ := Text.exists_of_comment? hfound
    exact Text.isCommentText_trim hbody

/-- A comment, up to the end of the line. -/
theorem comment_append {body rest : Text} (hbody : ∀ u ∈ body, u.isLineEnd = false)
    (hrest : rest.Avoids (!CodeUnit.isLineEnd ·)) :
    comment (CodeUnit.hash :: (body ++ rest))
      = .took (some (Text.trim body)) (CodeUnit.hash :: body).length := by
  rw [comment, Text.comment?_append hbody hrest]
  simp only [List.drop_succ_cons, List.drop_zero]

theorem comment_eq_none {t : Text} (h : t.Avoids (· == CodeUnit.hash)) :
    comment t = .took none 0 := by
  rw [comment, Text.comment?_eq_none h]

end Reader

end GDScript
