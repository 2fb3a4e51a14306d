import GDScript.Proofs.Pairing.Scan

/-!
# Texts in front of more text

`InFront` is for two texts that are the same as far as the first one goes; behind it the second one may
go on. What is read token by token is passed piece by piece (`Scan.Piece`), so the only law that such
cursors need is about the passing of a piece. Strings, and gaps inside brackets, stop in both texts at
the same place, since nothing is left open where the second text goes on. This makes them a
`TokenPairing` (`InFront.tokens`).
-/

namespace GDScript

open Grammar

/-- Cursors in front of the same text, behind which the second text may go on. -/
structure InFront where
  place : Location → Location → Prop
  /-- What is kept of a place of the first text. -/
  view : Location → Location
  /-- What is kept of a place of the second text. -/
  view' : Location → Location
  /-- What stands in the second text behind the first one. -/
  behind : Text
  /-- The cursors stand for each other, where these brackets are open. -/
  inside : Text → Cursor → Cursor → Prop
  view_eq {l l' : Location} (h : place l l') : view' l' = view l
  place_advanceBy {bs : Text} {k : Nat} {c c' : Cursor} (h : inside bs c c') (hk : k ≤ c.ahead.length) :
    place (c.advanceBy k).location (c'.advanceBy k).location
  /-- The same is ahead of them, or the first text has ended, and there is no string in the other one. -/
  ahead_cases {bs : Text} {c c' : Cursor} (h : inside bs c c') :
    c'.ahead = c.ahead ++ behind ∨ bs = [] ∧ c.ahead = [] ∧ c'.ahead.Avoids CodeUnit.isQuote
  closes {bs : Text} {c c' : Cursor} (h : inside bs c c') :
    behind = [] ∨ (Scan.code bs).closes c.ahead = true
  pass {bs cs s t : Text} {c c' : Cursor} (h : inside bs c c') (hahead : c.ahead = s ++ t)
    (hpiece : Scan.Piece bs cs s t) : inside cs (c.advanceBy s.length) (c'.advanceBy s.length)
  sameToken {bs : Text} {c c' : Cursor} (h : inside bs c c') : c.ahead.SameToken c'.ahead
  spaces {bs : Text} {c c' : Cursor} (h : inside bs c c') :
    inside bs (c.advanceBy c.ahead.gapLength) (c'.advanceBy c'.ahead.gapLength)
  endsItem {bs : Text} {c c' : Cursor} (h : inside bs c c') :
    Statement.endsItem (c'.ahead.drop c'.ahead.gapLength)
      = Statement.endsItem (c.ahead.drop c.ahead.gapLength)

namespace InFront

variable {x : InFront} {bs cs : Text} {v : CodeUnit} {c c' : Cursor}

/-- A gap that ends inside a text does not depend on what follows the text. -/
theorem layoutLength_eq {inComment : Bool} {t : Text}
    (h : t.drop (t.layoutLength inComment) ≠ []) (rest : Text) :
    Text.layoutLength inComment (t ++ rest) = t.layoutLength inComment := by
  induction t generalizing inComment with
  | nil => exact absurd List.drop_nil h
  | cons u t ih =>
    rw [Text.layoutLength] at h
    rw [List.cons_append, Text.layoutLength, Text.layoutLength]
    split_ifs at h ⊢
    all_goals first | rfl | rw [ih (by simpa using h)]

/-- A unit that opens or closes a bracket is passed. -/
theorem unit (h : x.inside bs c c') {u : CodeUnit} (hu : c.ahead.head? = some u)
    (hpiece : ∀ t, Scan.Piece bs cs [u] t) : x.inside cs (c.advanceBy 1) (c'.advanceBy 1) := by
  obtain ⟨t, hahead⟩ := List.head?_eq_some_iff.mp hu
  exact x.pass (s := [u]) h hahead (hpiece t)

theorem plain (h : x.inside bs c c') {k : Nat} (hk : c.ahead.StartsPlain k) :
    x.inside bs (c.advanceBy k) (c'.advanceBy k) := by
  obtain ⟨s, rest, hahead, rfl, hs⟩ := hk
  exact x.pass h hahead (.plain hs)

/-- A gap inside brackets is passed in both texts. -/
theorem layout (h : x.inside (v :: bs) c c') :
    x.inside (v :: bs) (c.advanceBy (c.ahead.layoutLength false))
      (c'.advanceBy (c'.ahead.layoutLength false)) := by
  have hgap : (Scan.code (v :: bs)).closes _ = _ := Scan.closes_layout false c.ahead
  rw [if_neg Bool.false_ne_true] at hgap
  have hlength : (c.ahead.take (c.ahead.layoutLength false)).length = c.ahead.layoutLength false :=
    List.length_take_of_le (Text.layoutLength_le false c.ahead)
  -- a gap in brackets ends within the text, so what is behind the text does not lengthen it
  have hsame : c'.ahead.layoutLength false = c.ahead.layoutLength false := by
    rcases x.ahead_cases h with hahead | ⟨hzero, -⟩
    · rw [hahead]
      rcases x.closes h with hnil | hclosed
      · rw [hnil, List.append_nil]
      · -- something is left behind the gap, since the brackets are closed
        refine layoutLength_eq (fun hnil => ?_) x.behind
        rw [hnil, hclosed] at hgap
        exact Bool.noConfusion hgap
    · exact absurd hzero (List.cons_ne_nil v bs)
  have hpassed := x.pass h (List.take_append_drop (c.ahead.layoutLength false) c.ahead).symm
    (.layout c.ahead)
  rw [hlength] at hpassed
  rw [hsame]
  exact hpassed

/-- A string of the first text is read in both texts, or the same is wrong with it. -/
theorem string (h : x.inside bs c c') :
    Reading.Pairs (.loose x.place) (fun v v' d d' =>
        v' = v.map (fun literal => ⟨id literal.body, literal.quote⟩) ∧ x.inside bs d d')
      c c' (Reader.string c.ahead) (Reader.string c'.ahead) := by
  have hplace : x.place c.location c'.location := by
    have hhere := x.place_advanceBy h (Nat.zero_le _)
    rwa [Cursor.advanceBy_zero, Cursor.advanceBy_zero] at hhere
  by_cases hnone : c.ahead.Avoids CodeUnit.isQuote
  · have hnone' : c'.ahead.Avoids CodeUnit.isQuote :=
      ((x.sameToken h).any_head? (by decide)).trans hnone
    rw [Reader.string_eq_none hnone, Reader.string_eq_none hnone']
    exact .took ⟨rfl, h⟩
  · have hahead : c'.ahead = c.ahead ++ x.behind := by
      refine (x.ahead_cases h).resolve_right fun hpast => hnone ?_
      rw [hpast.2.1]
      exact Text.avoids_nil _
    obtain ⟨quote, body, rest, hc, hbody, hstop⟩ := Reader.exists_string hnone
    -- a string that the first text leaves open is one at the end of both texts
    have hopen : rest = [] ∨ rest = [CodeUnit.backslash] → x.behind = [] := by
      intro hrest
      refine (x.closes h).resolve_right fun hclosed => ?_
      have hfalse : Scan.closes (.code bs) (quote.unit :: (body ++ rest)) = false :=
        Scan.closes_unterminated hbody hrest
      rw [← hc, hclosed] at hfalse
      exact Bool.noConfusion hfalse
    have hc' : c'.ahead = quote.unit :: (body ++ (rest ++ x.behind)) := by
      rw [hahead, hc, List.cons_append, List.append_assoc]
    cases hstop with
    | ended =>
      rw [hopen (.inl rfl), List.append_nil] at hc'
      rw [hc, hc', Reader.string_unterminated hbody (.inl rfl)]
      exact .fault trivial hplace
    | backslash =>
      rw [hopen (.inr rfl), List.append_nil] at hc'
      rw [hc, hc', Reader.string_unterminated hbody (.inr rfl)]
      exact .fault trivial hplace
    | closed rest =>
      have hsplit : c.ahead = (quote.unit :: (body ++ [quote.unit])) ++ rest := by
        rw [hc, List.cons_append, List.append_assoc, List.singleton_append]
      have hbehind := x.pass h hsplit (.string hbody)
      rw [List.length_cons, List.length_append, List.length_singleton] at hbehind
      rw [hc, hc', List.cons_append, Reader.string_closed hbody, Reader.string_closed hbody]
      exact .took ⟨rfl, hbehind⟩
    | @badEscape u hu rest =>
      rw [hc, hc', List.cons_append, List.cons_append, Reader.string_badEscape hbody hu,
        Reader.string_badEscape hbody hu]
      refine .fault trivial (x.place_advanceBy h ?_)
      rw [hc, List.length_cons, List.length_append]
      exact Nat.succ_le_succ (Nat.le_add_right _ _)

/-- The tokens of the two texts. -/
def tokens (x : InFront) : TokenPairing where
  reports := .loose x.place
  quoted := id
  view := x.view
  view' := x.view'
  inside := x.inside
  view_eq := x.view_eq
  complaint_eq _ _ _ := trivial
  unexpected _ := trivial
  quoted_nil := TokenPairing.id_nil
  quoted_cons _ := TokenPairing.id_cons _ _
  quoted_concat _ := TokenPairing.id_concat _ _
  place_inside h := by
    have hplace := x.place_advanceBy h (Nat.zero_le _)
    rwa [Cursor.advanceBy_zero, Cursor.advanceBy_zero] at hplace
  sameToken := x.sameToken
  plain h hk := plain h hk
  spaces := x.spaces
  endsItem := x.endsItem
  isDefault h _ := by
    have htoken := x.sameToken (x.spaces h)
    rw [Cursor.ahead_advanceBy, Cursor.ahead_advanceBy] at htoken
    exact htoken.startsInitializer
  default h _ hdefault := Cursor.default_of_spaces x.spaces (fun h hk => plain h hk) h hdefault
  opener h hu hopener := unit h hu fun _ => .opener hopener
  closer h hu hcloser := unit h hu fun _ => .closer hcloser
  layout h := layout h
  string h := string h

end InFront

end GDScript
