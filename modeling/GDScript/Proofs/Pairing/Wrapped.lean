import GDScript.Proofs.Pairing.File
import GDScript.Proofs.Pairing.InFront

/-!
# Lines wrapped inside brackets

Inside brackets a line may be wrapped at any gap: a space or a tab there may be replaced by a line feed,
and the script has the same tree up to places (`Script.exists_wrapped_of_parse`). Only the gaps on both
sides of the `=` of a default are taken as gaps of a line (`Declaration.AtDefault`); these stand where
the innermost bracket is the parenthesis around parameters, so the stack of open brackets is what tells
them from the gaps around the `=` of a variant.

`Wrap` is such a place. Up to it both texts are the same, and so they are behind it; what is ahead of two
cursors in front of it opens the brackets that are around it (`Wrap.Inside`), so it lies neither in a
string nor in a comment, and not in the first gap outside of brackets.
-/

namespace GDScript

open Grammar

/-! ### What is left open at a place ahead -/

namespace Text

variable {p : CodeUnit → Bool} {stops m t t' : Text}

/-- Texts that start alike do so behind anything that they start with both. -/
theorem Alike.prepend (s : Text) (h : Alike stops t t') : Alike stops (s ++ t) (s ++ t') := by
  induction s with
  | nil => exact h
  | cons u s ih =>
    by_cases hu : u ∈ stops
    · exact .stop (by simpa using hu) (by simpa using hu)
    · exact .unit hu ih

/-- A line that ends in what two texts start with is the same in both. -/
theorem sameLine_of_mem {u : CodeUnit} (hu : u.isLineEnd = true) (hm : u ∈ m) (t t' : Text) :
    SameLine (m ++ t) (m ++ t') := by
  induction m with
  | nil => exact absurd hm List.not_mem_nil
  | cons v m ih =>
    by_cases hv : v ∈ CodeUnit.lineEnds
    · exact .stop (by simpa using hv) (by simpa using hv)
    · refine .unit hv (ih ((List.mem_cons.mp hm).resolve_left ?_))
      rintro rfl
      exact hv (CodeUnit.isLineEnd_iff.mp hu)

end Text

namespace Scan

variable {v quote : CodeUnit} {bs cs m t : Text}

/-- In front of a gap inside brackets the same is open as behind it, if a place ahead is in code. -/
theorem run_layout (inComment : Bool)
    (h : run (if inComment then .comment (v :: bs) else .code (v :: bs)) m = .code cs) :
    (code (v :: bs)).run (m.drop (m.layoutLength inComment)) = .code cs ∧
      (m.drop (m.layoutLength inComment) = [] → ∀ t, Text.layoutLength inComment (m ++ t)
        = m.length + t.layoutLength false) := by
  -- within a comment and outside of one, since a gap goes through both
  induction m generalizing inComment with
  | nil =>
    cases inComment with
    | false => exact ⟨h, fun _ t => by rw [List.nil_append, List.length_nil, Nat.zero_add]⟩
    | true => exact absurd h (by simp)
  | cons u m ih =>
    have hcode := ih false
    have hcomment := ih true
    rw [if_neg Bool.false_ne_true] at hcode
    rw [if_pos rfl] at hcomment
    simp only [Text.layoutLength, List.cons_append, List.length_cons]
    -- a line end leaves a comment and is passed over outside of one, so code is behind it
    by_cases hline : u.isLineEnd = true
    · have hrest : (code (v :: bs)).run m = .code cs := by
        cases inComment with
        | false => rwa [if_neg Bool.false_ne_true, run_cons, after, afterCode_lineEnd hline] at h
        | true => rwa [if_pos rfl, run_cons, after, if_pos hline, afterCode_lineEnd hline] at h
      obtain ⟨hrun, hlength⟩ := hcode hrest
      rw [if_pos hline, List.drop_succ_cons]
      refine ⟨hrun, fun hnil t => ?_⟩
      rw [if_pos hline, hlength hnil, Nat.add_right_comm]
    · rw [if_neg hline]
      cases inComment with
      | true =>
        rw [if_pos rfl, run_cons, after, if_neg hline] at h
        obtain ⟨hrun, hlength⟩ := hcomment h
        rw [if_pos rfl, List.drop_succ_cons]
        refine ⟨hrun, fun hnil t => ?_⟩
        rw [if_neg hline, if_pos rfl, hlength hnil, Nat.add_right_comm]
      | false =>
        rw [if_neg Bool.false_ne_true, run_cons] at h
        rw [if_neg Bool.false_ne_true]
        by_cases hspace : u.isSpace = true
        · rw [after_plain (CodeUnit.isPlain_of_isSpace hspace)] at h
          obtain ⟨hrun, hlength⟩ := hcode h
          rw [if_pos hspace, List.drop_succ_cons]
          refine ⟨hrun, fun hnil t => ?_⟩
          rw [if_neg hline, if_neg Bool.false_ne_true, if_pos hspace, hlength hnil,
            Nat.add_right_comm]
        · rw [if_neg hspace]
          by_cases hhash : (u == CodeUnit.hash) = true
          · obtain rfl : u = CodeUnit.hash := by simpa using hhash
            obtain ⟨hrun, hlength⟩ := hcomment h
            rw [if_pos hhash, List.drop_succ_cons]
            refine ⟨hrun, fun hnil t => ?_⟩
            rw [if_neg hline, if_neg Bool.false_ne_true, if_neg hspace, if_pos hhash, hlength hnil,
              Nat.add_right_comm]
          · rw [if_neg hhash, List.drop_zero, run_cons]
            -- here the gap ends, in front of a unit that is left
            exact ⟨h, fun hnil => absurd hnil (List.cons_ne_nil u m)⟩

/-- Within the body of a string no place is in code. -/
theorem run_ne_code_of_isBody (hquote : quote ≠ CodeUnit.backslash) (h : t.IsBody quote)
    (hm : m <+: t) : (string bs quote).run m ≠ .code cs := by
  -- a body never leaves its string, wherever it is cut off
  induction h generalizing m with
  | nil => simp [List.prefix_nil.mp hm]
  | @unit u s hu hbackslash hs ih =>
    cases m with
    | nil => simp
    | cons w m =>
      obtain ⟨rfl, hrest⟩ := List.cons_prefix_cons.mp hm
      rw [run_cons, after, if_neg (by simpa using hu), if_neg (by simpa using hbackslash)]
      exact ih hrest
  | @escape u s hu hs ih =>
    have hescape : (string bs quote).after CodeUnit.backslash = .escape bs quote := by
      rw [after, if_neg (by simpa using hquote.symm), if_pos (beq_self_eq_true _)]
    cases m with
    | nil => simp
    | cons w m =>
      obtain ⟨rfl, hrest⟩ := List.cons_prefix_cons.mp hm
      rw [run_cons, hescape]
      cases m with
      | nil => simp
      | cons x m =>
        obtain ⟨rfl, hbehind⟩ := List.cons_prefix_cons.mp hrest
        rw [run_cons, after]
        exact ih hbehind

end Scan

/-! ### The gaps around the sign of a default -/

namespace Declaration

/-- The text ends with a single `=`, perhaps with a gap behind it. -/
def endsWithSign (t : Text) : Bool :=
  let signed : Text := t.reverse.dropWhile CodeUnit.isSpace
  signed.head? == some 0x3D && !(signed.drop 1).head?.any (List.contains "=!<>")

/-- What stands between the texts, inside the brackets, is a gap around the sign of a default. -/
def AtDefault (brackets front rest : Text) : Prop :=
  brackets.head? = some CodeUnit.parenthesis ∧
    (startsInitializer (rest.dropWhile CodeUnit.isSpace) = true ∨ endsWithSign front = true)

/-- Behind a gap, or behind a name, an `=` is a single one. -/
theorem endsWithSign_append {t g h : Text} (hg : ∀ u ∈ g, u.isSpace = true)
    (hh : ∀ u ∈ h, u.isSpace = true)
    (ht : ∃ u, t.getLast? = some u ∧ u.isIdentifierChar = true) :
    endsWithSign (t ++ (g ++ 0x3D :: h)) = true := by
  -- looked at from the end: spaces, the sign, and what stands in front of it
  have hreverse : (t ++ (g ++ 0x3D :: h)).reverse = h.reverse ++ 0x3D :: (g.reverse ++ t.reverse) := by
    simp
  have hsigned : (h.reverse ++ 0x3D :: (g.reverse ++ t.reverse)).dropWhile CodeUnit.isSpace
      = 0x3D :: (g.reverse ++ t.reverse) :=
    Text.dropWhile_append (by simpa using hh) rfl
  -- a space or a unit of a name in front of the sign makes no other operator of it
  have hsingle : ∀ u : CodeUnit, u.isSpace = true ∨ u.isIdentifierChar = true →
      List.contains ("=!<>" : Text) u = false := by
    intro u hu
    rw [← Bool.not_eq_true, List.contains_iff_mem]
    intro hmem
    have hnone : ∀ v ∈ ("=!<>" : Text), v.isSpace = false ∧ v.isIdentifierChar = false := by decide
    rcases hu with hu | hu
    · rw [(hnone u hmem).1] at hu
      exact Bool.noConfusion hu
    · rw [(hnone u hmem).2] at hu
      exact Bool.noConfusion hu
  have hnext : ∃ u, (g.reverse ++ t.reverse).head? = some u ∧
      (u.isSpace = true ∨ u.isIdentifierChar = true) := by
    obtain ⟨w, hw, hname⟩ := ht
    cases hlast : g.getLast? with
    | none =>
      refine ⟨w, ?_, .inr hname⟩
      rw [List.head?_append, List.head?_reverse, hlast, List.head?_reverse]
      exact hw
    | some u =>
      refine ⟨u, ?_, .inl (hg u (List.mem_of_getLast? hlast))⟩
      rw [List.head?_append, List.head?_reverse, hlast]
      rfl
  obtain ⟨u, hhead, hu⟩ := hnext
  simp only [endsWithSign, hreverse, hsigned, List.head?_cons, List.drop_succ_cons, List.drop_zero,
    hhead, Option.any_some, hsingle u hu]
  rfl

end Declaration

/-! ### The two texts -/

/-- A space or a tab inside brackets, with what stands before it and behind it. -/
structure Wrap where
  front : Text
  space : CodeUnit
  rest : Text
  /-- The brackets around it. -/
  brackets : Text
  isSpace : space.isSpace = true
  run_front : (Scan.code []).run front = .code brackets
  brackets_ne_nil : brackets ≠ []
  not_atDefault : ¬Declaration.AtDefault brackets front rest

namespace Wrap

variable (x : Wrap) {bs cs m s t : Text} {v : CodeUnit} {c c' : Cursor}

/-- The text, in one line there. -/
def source : Text := x.front ++ x.space :: x.rest

/-- The text, wrapped there. -/
def wrapped : Text := x.front ++ CodeUnit.lineFeed :: x.rest

/-- The cursors stand in front of the place, or behind it; these brackets are open. -/
inductive Inside (bs : Text) (c c' : Cursor) : Prop where
  | front {m : Text} (h : c.ahead = m ++ x.space :: x.rest)
      (h' : c'.ahead = m ++ CodeUnit.lineFeed :: x.rest)
      (hscan : (Scan.code bs).run m = .code x.brackets) (hsource : c.source = x.source)
  | rest (h : c'.ahead = c.ahead)

variable {x}

theorem inside_start : x.Inside [] (Cursor.ofText x.source) (Cursor.ofText x.wrapped) :=
  .front rfl rfl x.run_front rfl

/-- Outside of brackets something that is not of a class stands in front of the place. -/
theorem dropWhile_ne_nil {p : CodeUnit → Bool} (hp : ∀ u ∈ CodeUnit.delimiters, p u = false)
    (hscan : (Scan.code []).run m = .code x.brackets) : m.dropWhile p ≠ [] := by
  intro hnil
  have hplain : ∀ u ∈ m, u.isPlain = true := fun u hu =>
    CodeUnit.isPlain_of_class hp (List.dropWhile_eq_nil_iff.mp hnil u hu)
  rw [Scan.run_plain hplain] at hscan
  exact x.brackets_ne_nil (Scan.code.inj hscan).symm

/-- What both cursors pass may reach up to the place, or beyond it. -/
theorem Inside.advanceBy (h : x.Inside bs c c') (hc : c.ahead = s ++ t)
    (hscan : ∀ {r : Text}, r <+: t → (Scan.code bs).run (s ++ r) = .code x.brackets →
      (Scan.code cs).run r = .code x.brackets) :
    x.Inside cs (c.advanceBy s.length) (c'.advanceBy s.length) := by
  cases h with
  | rest h => exact .rest (by rw [Cursor.ahead_advanceBy, Cursor.ahead_advanceBy, h])
  | @front m h h' hfront hsource =>
    rw [hc] at h
    -- what is taken ends in front of the place, or it goes beyond it
    rcases List.append_eq_append_iff.mp h with ⟨r, rfl, rfl⟩ | ⟨r, rfl, hr⟩
    · refine .front (m := r) ?_ ?_ (hscan (List.prefix_append r _) hfront) ?_
      · rw [Cursor.ahead_advanceBy, hc, List.drop_left]
      · rw [Cursor.ahead_advanceBy, h', List.append_assoc, List.drop_left]
      · rw [Cursor.source_advanceBy, hsource]
    · -- what is taken may end just in front of the place
      cases r with
      | nil =>
        rw [List.append_nil] at hc hscan ⊢
        rw [List.nil_append] at hr
        have hend := hscan (r := []) List.nil_prefix
        rw [List.append_nil] at hend
        refine .front (m := []) ?_ ?_ (hend hfront) ?_
        · rw [Cursor.ahead_advanceBy, hc, List.drop_left, ← hr]
          rfl
        · rw [Cursor.ahead_advanceBy, h', List.drop_left]
          rfl
        · rw [Cursor.source_advanceBy, hsource]
      | cons w r =>
        obtain ⟨rfl, hbehind⟩ := List.cons.inj hr
        have hrest : x.rest = r ++ t := hbehind
        refine .rest ?_
        rw [Cursor.ahead_advanceBy, Cursor.ahead_advanceBy, hc, h', hrest, List.drop_left,
          List.length_append, ← List.drop_drop, List.drop_left, List.length_cons,
          List.drop_succ_cons, List.drop_left]

theorem Inside.plain (h : x.Inside bs c c') {k : Nat} (hk : c.ahead.StartsPlain k) :
    x.Inside bs (c.advanceBy k) (c'.advanceBy k) := by
  obtain ⟨s, t, hc, rfl, hs⟩ := hk
  refine h.advanceBy hc fun {r} _ hr => ?_
  rwa [Scan.run_append, Scan.run_plain hs] at hr

/-- A unit that opens or closes a bracket is passed. -/
theorem Inside.unit (h : x.Inside bs c c') {u : CodeUnit} (hu : c.ahead.head? = some u)
    (hafter : (Scan.code bs).after u = .code cs) : x.Inside cs (c.advanceBy 1) (c'.advanceBy 1) := by
  obtain ⟨t, hc⟩ := List.head?_eq_some_iff.mp hu
  refine h.advanceBy (s := [u]) hc fun {r} _ hr => ?_
  rwa [List.singleton_append, Scan.run_cons, hafter] at hr

/-- The gap on a line, outside of brackets, ends in front of the place. -/
theorem Inside.spaces (h : x.Inside [] c c') :
    x.Inside [] (c.advanceBy c.ahead.gapLength) (c'.advanceBy c'.ahead.gapLength) := by
  have hgap : c'.ahead.gapLength = c.ahead.gapLength := by
    cases h with
    | rest h => rw [h]
    | front h h' hscan _ =>
      have hne := dropWhile_ne_nil (p := CodeUnit.isSpace) (by decide) hscan
      rw [h, h', Text.gapLength, Text.gapLength, Text.takeWhile_append_of_dropWhile hne,
        Text.takeWhile_append_of_dropWhile hne]
  rw [hgap]
  exact h.plain (Text.startsPlain_takeWhile (by decide) c.ahead)

theorem Inside.layout (h : x.Inside (v :: bs) c c') :
    x.Inside (v :: bs) (c.advanceBy (c.ahead.layoutLength false))
      (c'.advanceBy (c'.ahead.layoutLength false)) := by
  cases h with
  | rest h => exact .rest (by rw [Cursor.ahead_advanceBy, Cursor.ahead_advanceBy, h])
  | @front m h h' hscan hsource =>
    obtain ⟨hrun, hlength⟩ := Scan.run_layout false hscan
    by_cases hnil : m.drop (m.layoutLength false) = []
    · -- the place belongs to the gap, which goes on behind it in both texts
      refine .rest ?_
      have hspace : Text.layoutLength false (x.space :: x.rest) = x.rest.layoutLength false + 1 := by
        have hline := CodeUnit.isLineEnd_of_isPlain (CodeUnit.isPlain_of_isSpace x.isSpace)
        rw [Text.layoutLength, hline, x.isSpace, if_neg Bool.false_ne_true,
          if_neg Bool.false_ne_true, if_pos rfl]
      have hfeed : Text.layoutLength false (CodeUnit.lineFeed :: x.rest)
          = x.rest.layoutLength false + 1 := rfl
      have hdrop : ∀ (u : CodeUnit) (k : Nat),
          (m ++ u :: x.rest).drop (m.length + (k + 1)) = x.rest.drop k := fun u k => by
        rw [← List.drop_drop, List.drop_left, List.drop_succ_cons]
      rw [Cursor.ahead_advanceBy, Cursor.ahead_advanceBy, h, h', hlength hnil, hlength hnil, hspace,
        hfeed, hdrop, hdrop]
    · have hle := Text.layoutLength_le false m
      rw [h, h', InFront.layoutLength_eq hnil, InFront.layoutLength_eq hnil]
      refine .front (m := m.drop (m.layoutLength false)) ?_ ?_ hrun ?_
      · rw [Cursor.ahead_advanceBy, h, List.drop_append_of_le_length hle]
      · rw [Cursor.ahead_advanceBy, h', List.drop_append_of_le_length hle]
      · rw [Cursor.source_advanceBy, hsource]

/-- A token ends at the place in both texts. -/
theorem sameToken_append (m : Text) :
    Text.SameToken (m ++ x.space :: x.rest) (m ++ CodeUnit.lineFeed :: x.rest) := by
  have hspace : x.space ∈ CodeUnit.tokenEnds := by
    have hunit := x.isSpace
    rw [CodeUnit.isSpace, Bool.or_eq_true, beq_iff_eq, beq_iff_eq] at hunit
    rcases hunit with hunit | hunit <;> rw [hunit] <;> decide
  have hfeed : CodeUnit.lineFeed ∈ CodeUnit.tokenEnds := by decide
  exact .prepend m (.stop (by simpa using hspace) (by simpa using hfeed))

theorem Inside.sameToken (h : x.Inside bs c c') : c.ahead.SameToken c'.ahead := by
  cases h with
  | rest h =>
    rw [h]
    exact .refl _
  | @front m h h' _ _ =>
    rw [h, h']
    exact sameToken_append m

/-- Outside of brackets the line is the same in both texts, or it starts with code. -/
theorem Inside.sameStart (h : x.Inside [] c c') : c.ahead.SameStart c'.ahead := by
  cases h with
  | rest h =>
    rw [h]
    exact .line (.refl _)
  | @front m h h' hscan _ =>
    rw [h, h']
    by_cases hline : ∃ u ∈ m, u.isLineEnd = true
    · obtain ⟨u, hm, hu⟩ := hline
      exact .line (Text.sameLine_of_mem hu hm _ _)
    · have hnone : ∀ u ∈ m, u.isLineEnd = false := by simpa using hline
      have hne := dropWhile_ne_nil (p := CodeUnit.isSpace) (by decide) hscan
      have hsplit := List.takeWhile_append_dropWhile (p := CodeUnit.isSpace) (l := m)
      have havoids := Text.avoids_dropWhile CodeUnit.isSpace m
      have hgap : ∀ u ∈ m.takeWhile CodeUnit.isSpace, u.isSpace = true := Text.takeWhile_pos
      generalize m.takeWhile CodeUnit.isSpace = g, m.dropWhile CodeUnit.isSpace = w
        at hne hsplit havoids hgap
      obtain ⟨u, w, rfl⟩ := List.exists_cons_of_ne_nil hne
      subst hsplit
      refine .code (u := u) hgap ?_ (List.append_assoc _ _ _) (List.append_assoc _ _ _)
      -- a comment would go on up to the place
      have hhash : u ≠ CodeUnit.hash := by
        rintro rfl
        rw [Scan.run_append, Scan.run_plain fun v hv => CodeUnit.isPlain_of_isSpace (hgap v hv),
          Scan.run_cons, show (Scan.code []).after CodeUnit.hash = .comment [] from rfl,
          Scan.run_comment fun v hv => hnone v (by simp [hv])] at hscan
        cases hscan
      rw [CodeUnit.startsGap, Text.avoids_cons.mp havoids, hnone u (by simp),
        beq_eq_false_iff_ne.mpr hhash]
      rfl

/-- A comment ends in front of the place. -/
theorem Inside.comment (h : x.Inside [] c c') {found : Text} (hfound : c.ahead.comment? = some found) :
    x.Inside [] (c.advanceBy found.length) (c'.advanceBy found.length) := by
  obtain ⟨body, t, hc, rfl, hbody, ht⟩ := Text.exists_of_comment? hfound
  refine h.advanceBy (s := CodeUnit.hash :: body) hc fun {r} hprefix hr => ?_
  have hcomment : (Scan.code []).after CodeUnit.hash = .comment [] := rfl
  rw [Scan.run_append, Scan.run_cons, hcomment, Scan.run_comment hbody] at hr
  obtain ⟨rest, rfl⟩ := hprefix
  cases r with
  | nil => exact absurd hr (by simp)
  | cons u r =>
    have hu : u.isLineEnd = true := Text.atLineEnd_of_avoids ht
    rwa [Scan.run_cons, Scan.after, if_pos hu] at hr

/-- A string that starts in front of the place also stops there, whatever it stops with. -/
theorem exists_of_string {quote : Quote} {body : Text} (hbody : body.IsBody quote.unit)
    (h : quote.unit :: (body ++ t) = m ++ x.space :: x.rest)
    (hscan : (Scan.code bs).run m = .code x.brackets) :
    ∃ w, m = quote.unit :: (body ++ w) ∧ t = w ++ x.space :: x.rest ∧
      (Scan.string bs quote.unit).run w = .code x.brackets := by
  cases m with
  | nil =>
    have hspace := x.isSpace
    rw [← (List.cons.inj h).1] at hspace
    cases quote <;> exact absurd hspace (by decide)
  | cons u m =>
    obtain ⟨rfl, hm⟩ := List.cons.inj h
    rw [Scan.run_cons, Scan.after_quote] at hscan
    have hbodyrun : ∀ w, (Scan.string bs quote.unit).run (body ++ w)
        = (Scan.string bs quote.unit).run w := fun w => by
      rw [Scan.run_append, Scan.run_body quote.unit_ne_backslash hbody]
    -- the place cannot stand in the string, for brackets are open there and no quote
    rcases List.append_eq_append_iff.mp hm with ⟨w, rfl, ht⟩ | ⟨w, rfl, -⟩
    · rw [hbodyrun] at hscan
      exact ⟨w, rfl, ht, hscan⟩
    · exact absurd hscan
        (Scan.run_ne_code_of_isBody quote.unit_ne_backslash hbody (List.prefix_append m w))

/-- A string ends in front of the place, or it starts behind it. -/
theorem Inside.string (h : x.Inside bs c c') :
    Reading.Pairs (.loose fun _ _ => True) (fun v v' d d' =>
        v' = v.map (fun literal => ⟨id literal.body, literal.quote⟩) ∧ x.Inside bs d d')
      c c' (Reader.string c.ahead) (Reader.string c'.ahead) := by
  by_cases hnone : c.ahead.Avoids CodeUnit.isQuote
  · have hnone' : c'.ahead.Avoids CodeUnit.isQuote := (h.sameToken.any_head? (by decide)).trans hnone
    rw [Reader.string_eq_none hnone, Reader.string_eq_none hnone']
    exact .took ⟨rfl, h⟩
  · obtain ⟨quote, body, t, hc, hbody, hstop⟩ := Reader.exists_string hnone
    have hinside := h
    cases h with
    | rest h =>
      rw [h]
      cases Reader.string c.ahead with
      | took v n =>
        refine .took ⟨by cases v <;> rfl, .rest ?_⟩
        rw [Cursor.ahead_advanceBy, Cursor.ahead_advanceBy, h]
      | fault complaint => exact .fault trivial trivial
    | @front m h h' hscan hsource =>
      obtain ⟨w, rfl, rfl, hw⟩ := exists_of_string hbody (hc.symm.trans h) hscan
      rw [List.cons_append, List.append_assoc] at h'
      -- what the string stops with belongs to what stands in front of the place
      generalize ht : w ++ x.space :: x.rest = t at hstop
      cases hstop with
      | ended => exact absurd ht (by simp)
      | backslash =>
        have hlength := congrArg List.length ht
        obtain rfl : w = [] := by
          rw [List.length_append, List.length_cons, List.length_singleton] at hlength
          exact List.length_eq_zero_iff.mp (by omega)
        exact absurd hw (by simp)
      | closed rest =>
        obtain ⟨w, rfl⟩ : ∃ w', w = quote.unit :: w' := by
          cases w with
          | nil => exact absurd hw (by simp)
          | cons u w => exact ⟨w, by rw [(List.cons.inj ht).1]⟩
        have hsplit : c.ahead = (quote.unit :: (body ++ [quote.unit])) ++ rest := by
          rw [hc, ht, List.cons_append, List.append_assoc, List.singleton_append]
        have hpassed : x.Inside bs _ _ := hinside.advanceBy hsplit fun {r} _ hr => by
          rwa [Scan.run_append, Scan.run_string hbody] at hr
        rw [List.length_cons, List.length_append, List.length_singleton] at hpassed
        rw [hc, ht, h', List.cons_append, Reader.string_closed hbody, Reader.string_closed hbody]
        exact .took ⟨rfl, hpassed⟩
      | @badEscape u hu rest =>
        obtain ⟨w, rfl⟩ : ∃ w', w = CodeUnit.backslash :: u :: w' := by
          match w, hw, ht with
          | [], hw, _ => exact absurd hw (by simp)
          | [v], hw, ht =>
            obtain rfl : v = CodeUnit.backslash := (List.cons.inj ht).1
            rw [Scan.run_cons, Scan.after, if_neg (by simpa using quote.unit_ne_backslash.symm)] at hw
            exact absurd hw (by simp)
          | v :: v' :: w, _, ht =>
            obtain ⟨rfl, hrest⟩ := List.cons.inj ht
            exact ⟨w, by rw [(List.cons.inj hrest).1]⟩
        rw [hc, ht, h', List.cons_append, List.cons_append, Reader.string_badEscape hbody hu,
          Reader.string_badEscape hbody hu]
        exact .fault trivial trivial

/-! ### Defaults -/

/-- In front of the place, behind a gap of the line, stands more than the gap. -/
theorem dropWhile_isSpace_ne_nil (hscan : (Scan.code bs).run m = .code x.brackets)
    (hparenthesis : bs.head? = some CodeUnit.parenthesis)
    (hdefault : Declaration.startsInitializer
      (List.dropWhile CodeUnit.isSpace (m ++ x.space :: x.rest)) = true) :
    m.dropWhile CodeUnit.isSpace ≠ [] := by
  intro hnil
  have hspaces := List.dropWhile_eq_nil_iff.mp hnil
  rw [Scan.run_plain fun u hu => CodeUnit.isPlain_of_isSpace (hspaces u hu)] at hscan
  refine x.not_atDefault ⟨Scan.code.inj hscan ▸ hparenthesis, .inl ?_⟩
  rwa [List.dropWhile_append, hnil, List.isEmpty_nil, if_pos rfl, List.dropWhile_cons,
    if_pos x.isSpace] at hdefault

/-- Behind the name or the type of a parameter a default is given in both texts, or in none. -/
theorem Inside.startsInitializer_eq (h : x.Inside (CodeUnit.parenthesis :: bs) c c') :
    Declaration.startsInitializer (c'.ahead.drop c'.ahead.gapLength)
      = Declaration.startsInitializer (c.ahead.drop c.ahead.gapLength) := by
  rw [Text.gapLength, Text.gapLength, Text.drop_length_takeWhile, Text.drop_length_takeWhile]
  cases h with
  | rest h => rw [h]
  | @front m h h' hscan _ =>
    rw [h, h']
    -- where only spaces are left in front of the place, no default follows in either text
    by_cases hnil : m.dropWhile CodeUnit.isSpace = []
    · have hnone : Declaration.startsInitializer
          (List.dropWhile CodeUnit.isSpace (m ++ x.space :: x.rest)) = false := by
        rw [← Bool.not_eq_true]
        exact fun hdefault => dropWhile_isSpace_ne_nil hscan rfl hdefault hnil
      rw [hnone, List.dropWhile_append, hnil, List.isEmpty_nil, if_pos rfl]
      rfl
    · rw [Text.dropWhile_append_of_dropWhile hnil, Text.dropWhile_append_of_dropWhile hnil]
      exact (sameToken_append _).startsInitializer

/-- The place is not in front of the value of a default, so both texts go on up to that. -/
theorem Inside.default (h : x.Inside (CodeUnit.parenthesis :: bs) c c') (hname : c.EndsName)
    (hdefault : Declaration.startsInitializer (c.ahead.drop c.ahead.gapLength) = true) :
    x.Inside (CodeUnit.parenthesis :: bs) (c.advanceBy c.ahead.defaultDistance)
      (c'.advanceBy c'.ahead.defaultDistance) := by
  rw [Text.gapLength, Text.drop_length_takeWhile] at hdefault
  have hinside := h
  cases h with
  | rest h => exact .rest (by rw [Cursor.ahead_advanceBy, Cursor.ahead_advanceBy, h])
  | @front m h h' hscan hsource =>
    rw [h] at hdefault
    have hne := dropWhile_isSpace_ne_nil hscan rfl hdefault
    have hspaces : ∀ u ∈ m.takeWhile CodeUnit.isSpace, u.isSpace = true := Text.takeWhile_pos
    have hm := List.takeWhile_append_dropWhile (p := CodeUnit.isSpace) (l := m)
    rw [Text.dropWhile_append_of_dropWhile hne] at hdefault
    have hgap : ∀ t : Text, Text.gapLength (m ++ t) = (m.takeWhile CodeUnit.isSpace).length :=
      fun t => congrArg List.length (Text.takeWhile_append_of_dropWhile hne t)
    generalize m.takeWhile CodeUnit.isSpace = g, m.dropWhile CodeUnit.isSpace = w at *
    -- the sign, and what stands between it and the place
    obtain ⟨u, w, rfl⟩ := List.exists_cons_of_ne_nil hne
    obtain rfl : u = 0x3D := by
      have hprefix := (Bool.and_eq_true_iff.mp hdefault).1
      exact (List.cons_prefix_cons.mp (List.isPrefixOf_iff_prefix.mp hprefix)).1.symm
    subst hm
    have hbehind : w.dropWhile CodeUnit.isSpace ≠ [] := by
      intro hnil
      have hgap' := List.dropWhile_eq_nil_iff.mp hnil
      have hplain : ∀ u ∈ g ++ 0x3D :: w, u.isPlain = true := by
        refine List.forall_mem_append.mpr ⟨fun u hu => CodeUnit.isPlain_of_isSpace (hspaces u hu),
          List.forall_mem_cons.mpr ⟨by decide, fun u hu => CodeUnit.isPlain_of_isSpace (hgap' u hu)⟩⟩
      rw [Scan.run_plain hplain] at hscan
      have hfront : c.behind.reverse ++ (g ++ 0x3D :: w) = x.front := by
        rw [Cursor.source, h, ← List.append_assoc] at hsource
        exact List.append_cancel_right hsource
      obtain ⟨u, hlast, hu⟩ := hname
      refine x.not_atDefault ⟨by rw [← Scan.code.inj hscan]; rfl, .inr ?_⟩
      rw [← hfront]
      exact Declaration.endsWithSign_append hspaces hgap'
        ⟨u, by rw [List.getLast?_reverse, hlast], hu⟩
    have hdistance : ∀ t : Text, Text.defaultDistance (g ++ 0x3D :: w ++ t)
        = (g ++ 0x3D :: w.takeWhile CodeUnit.isSpace).length := by
      intro t
      have hdrop : (g ++ 0x3D :: w ++ t).drop (g.length + 1) = w ++ t := by
        rw [List.append_assoc, ← List.drop_drop, List.drop_left]
        rfl
      rw [Text.defaultDistance, hgap, hdrop, Text.gapLength,
        Text.takeWhile_append_of_dropWhile hbehind, List.length_append, List.length_cons]
      omega
    rw [h, h', hdistance, hdistance]
    refine hinside.plain ⟨g ++ 0x3D :: w.takeWhile CodeUnit.isSpace,
      w.dropWhile CodeUnit.isSpace ++ x.space :: x.rest, ?_, rfl, ?_⟩
    · rw [h, List.append_assoc, List.append_assoc, List.cons_append, List.cons_append,
        ← List.append_assoc (w.takeWhile _), List.takeWhile_append_dropWhile]
    · exact List.forall_mem_append.mpr ⟨fun u hu => CodeUnit.isPlain_of_isSpace (hspaces u hu),
        List.forall_mem_cons.mpr ⟨by decide, fun u hu =>
          CodeUnit.isPlain_of_isSpace (Text.takeWhile_pos u hu)⟩⟩

/-! ### Where lines start -/

/-- An empty line ends in front of the place. -/
theorem Inside.line (h : x.Inside [] c c') (hempty : c.ahead.isEmptyLine = true) :
    x.Inside [] (c.advanceBy c.ahead.lineLength) (c'.advanceBy c'.ahead.lineLength) := by
  cases h with
  | rest h => exact .rest (by rw [Cursor.ahead_advanceBy, Cursor.ahead_advanceBy, h])
  | @front m h h' hscan hsource =>
    rw [h] at hempty
    obtain ⟨l, r, hl, -, ⟨rfl, -⟩ | rfl⟩ := m.exists_line
    · -- the place would stand on the empty line
      rcases Scan.run_emptyLine _ hl hempty with hrun | hrun | hrun
      · exact absurd (Scan.code.inj (hrun.symm.trans hscan)).symm x.brackets_ne_nil
      · exact absurd (hrun.symm.trans hscan) (by simp)
      · exact absurd (hrun.symm.trans hscan) (by simp)
    · -- the line ends in front of the place, which the cursor comes nearer to
      rw [List.append_assoc, List.cons_append] at hempty h h'
      refine .front (m := r) ?_ ?_ ?_ ?_
      · rw [Cursor.ahead_advanceBy, h, Text.drop_lineLength_append hl]
      · rw [Cursor.ahead_advanceBy, h', Text.drop_lineLength_append hl]
      · rwa [← List.singleton_append, ← List.append_assoc, Scan.run_append,
          Scan.run_emptyLine_lineFeed _ hl hempty] at hscan
      · rw [Cursor.source_advanceBy, hsource]

/-- A line break stands in both texts, or in none of them. -/
theorem Inside.lineBreakLength_eq (h : x.Inside [] c c') :
    c'.ahead.lineBreakLength = c.ahead.lineBreakLength := by
  cases h with
  | rest h => rw [h]
  | @front m h h' hscan _ =>
    rw [h, h']
    match m, hscan with
    | [], hscan => exact absurd (Scan.code.inj hscan).symm x.brackets_ne_nil
    | u :: v :: m, _ => rfl
    | [u], hscan =>
      -- a return in front of the place would end the line there
      have hreturn : (u == CodeUnit.carriageReturn) = false := by
        rw [beq_eq_false_iff_ne]
        rintro rfl
        exact absurd hscan (by rw [Scan.run_cons]; exact Scan.noConfusion)
      simp only [List.singleton_append, Text.lineBreakLength, hreturn, Bool.false_and]

theorem Inside.opens (h : x.Inside [] c c') (fresh : Prop) :
    c.Opens (.loose fun _ _ => True) id (x.Inside []) (x.Inside []) (fun _ => False) fresh c' := by
  -- brackets are open at the place, so something else than spaces stands in front of it on its line
  have hwidth : c'.ahead.indentation = c.ahead.indentation := by
    cases h with
    | rest h => rw [h]
    | front h h' hscan _ =>
      have hne := dropWhile_ne_nil (p := (· == CodeUnit.space)) (by decide) hscan
      rw [h, h', Text.indentation, Text.indentation, Text.takeWhile_append_of_dropWhile hne,
        Text.takeWhile_append_of_dropWhile hne]
  have hcode : x.Inside [] (c.advanceBy c.ahead.indentation) (c'.advanceBy c'.ahead.indentation) := by
    rw [hwidth]
    exact h.plain (Text.startsPlain_takeWhile (by decide) c.ahead)
  have hbreak : c.ahead.lineBreakLength = 0 ↔ c'.ahead.lineBreakLength = 0 := by
    rw [h.lineBreakLength_eq]
  cases h with
  | rest h =>
    by_cases hnil : c.ahead = []
    · exact .ended hnil (h.trans hnil)
    · exact .line hnil (h ▸ hnil) hwidth hcode (Inside.line (.rest h)) hbreak
  | @front m h h' hscan hsource =>
    have hnil : c.ahead ≠ [] := by simp [h]
    have hnil' : c'.ahead ≠ [] := by simp [h']
    exact .line hnil hnil' hwidth hcode (Inside.line (.front h h' hscan hsource)) hbreak

/-- A text and the same text wrapped at the place, side by side. -/
def pairing (x : Wrap) : Pairing where
  reports := .loose fun _ _ => True
  quoted := id
  width := id
  view := Location.nowhere
  view' := Location.nowhere
  inside := x.Inside
  between := x.Inside []
  gone _ := False
  fresh := True
  view_eq _ := Location.nowhere_eq _ _
  complaint_eq _ _ _ := trivial
  unexpected _ := trivial
  complaint_indentation _ _ := trivial
  width_zero := Pairing.id_zero
  width_lt := @Pairing.id_lt_id
  quoted_nil := TokenPairing.id_nil
  quoted_cons _ := TokenPairing.id_cons _ _
  quoted_concat _ := TokenPairing.id_concat _ _
  place_inside _ := trivial
  place_between _ := trivial
  sameStart h := h.sameStart
  sameToken h := h.sameToken
  plain h hk := h.plain hk
  spaces h := h.spaces
  -- spaces are passed over on both sides, and the place is one of them
  endsItem h := by
    have hbehind := h.spaces.sameStart
    rw [Cursor.ahead_advanceBy, Cursor.ahead_advanceBy] at hbehind
    exact hbehind.endsItem
  isDefault h _ := h.startsInitializer_eq
  default h hname hdefault := h.default hname hdefault
  opener h hu hopener := h.unit hu (Scan.after_opener hopener)
  closer h hu hcloser := h.unit hu (Scan.after_closer hcloser)
  layout h := h.layout
  string h := h.string
  comment h hfound := h.comment hfound
  between_of_inside h _ := h
  opens h := h.opens True
  gone_advanceBy h _ := h

theorem endTogether_pairing (x : Wrap) : x.pairing.EndTogether where
  ended h hnil := by
    cases h with
    | rest h => rw [h, hnil]
    | front h => simp [hnil] at h
  not_gone _ h := h
  fresh := trivial

end Wrap

namespace Script

variable {front rest brackets : Text} {u : CodeUnit} {depth : Option Int} {block : Block}

/--
Inside brackets a line may be wrapped at a space or a tab: the script is still read, with the same tree
up to places. Only around the sign of a default in parentheses a gap is one of the line.
-/
theorem exists_wrapped_of_parse (hu : u.isSpace = true)
    (hscan : (Scan.code []).run front = .code brackets) (hbrackets : brackets ≠ [])
    (hdefault : ¬Declaration.AtDefault brackets front rest)
    (h : parse (front ++ u :: rest) depth = .ok block) :
    ∃ block', parse (front ++ CodeUnit.lineFeed :: rest) depth = .ok block' ∧
      block'.bare = block.bare := by
  let x : Wrap := ⟨front, u, rest, brackets, hu, hscan, hbrackets, hdefault⟩
  have hstart : x.pairing.between (Cursor.ofText x.source) (Cursor.ofText x.wrapped) :=
    Wrap.inside_start
  have htogether := x.endTogether_pairing
  obtain ⟨block', hparse, hsame⟩ := exists_of_pairs (r := x.pairing.reports)
    (Q := x.pairing.SameBlock) rfl trivial (fun room _ =>
      (Pairing.pairs_topLines htogether hstart).mono fun _ _ d d' hlines hnil =>
        ⟨hlines.1, Pairing.nextCode_eq_nil htogether hlines.2.1 hnil⟩) h
  -- the pairing says nothing of places, so both scripts are the same once they are bare
  refine ⟨block', hparse, ?_⟩
  calc block'.bare = block'.map id Location.nowhere := block'.bare_eq_map
    _ = block.map id Location.nowhere := hsame
    _ = block.bare := block.bare_eq_map.symm

/--
A line break in front of a parameter. Next to the sign of its default value, one space further on,
there may be none.
-/
theorem exists_wrapped_of_parse_parameter :
    CodeUnit.isSpace 0x20 = true ∧ (Scan.code []).run "func f(a: int," = .code "(" ∧
      ¬Declaration.AtDefault "(" "func f(a: int," "b = 1):\n  pass\n" ∧ ∃ block,
        parse "func f(a: int, b = 1):\n  pass\n" none = .ok block ∧ ∃ block',
          parse "func f(a: int,\nb = 1):\n  pass\n" none = .ok block' ∧ block'.bare = block.bare := by
  have hscan : (Scan.code []).run "func f(a: int," = .code "(" := by decide
  -- neither side of the place is a sign of assignment
  have hdefault : ¬Declaration.AtDefault "(" "func f(a: int," "b = 1):\n  pass\n" := by
    rintro ⟨-, hsign | hsign⟩
    · exact absurd hsign (by decide)
    · exact absurd hsign (by decide)
  have hsource : ("func f(a: int, b = 1):\n  pass\n" : Text)
      = ("func f(a: int," : Text) ++ 0x20 :: ("b = 1):\n  pass\n" : Text) := by decide
  have hwrapped : ("func f(a: int,\nb = 1):\n  pass\n" : Text)
      = ("func f(a: int," : Text) ++ CodeUnit.lineFeed :: ("b = 1):\n  pass\n" : Text) := by decide
  have hok : (parse "func f(a: int, b = 1):\n  pass\n" none).isOk = true := by decide +kernel
  rw [hwrapped]
  rw [hsource] at hok ⊢
  cases hparse : parse (("func f(a: int," : Text) ++ 0x20 :: ("b = 1):\n  pass\n" : Text)) none with
  | error failure =>
    rw [hparse] at hok
    cases hok
  | ok block =>
    exact ⟨rfl, hscan, hdefault, block, rfl,
      exists_wrapped_of_parse rfl hscan (by decide) hdefault hparse⟩

end Script

end GDScript
