import GDScript.Proofs.Pairing.File
import GDScript.Proofs.Pairing.InFront

/-!
# A text beside itself

A run goes alike with itself. What this tells of the run is what the relation between the cursors says of
one of them: here, what has been passed since a cursor (`Cursor.Passed`). So an item of a line closes what
it opens, and does not end with a return (`Cursor.pairing`), and one that is read without a block stays on
its line (`Cursor.inFront` for `Scan.staysOnLine`). In particular a script that is read closes what it
opens (`Script.closes_of_parse`).
-/

namespace GDScript

open Grammar

/-- What starts a text that is at the end of a line is at the end of a line. -/
theorem Text.atLineEnd_of_isPrefix {s t : Text} (h : s <+: t) (ht : t.atLineEnd = true) :
    s.atLineEnd = true := by
  obtain ⟨rest, rfl⟩ := h
  cases s with
  | nil => rfl
  | cons u s => exact ht

namespace Cursor

variable {f : Scan → Text → Bool} {start c c' : Cursor} {bs cs s r t : Text}

/-- What has been passed since the start leaves these brackets open, as far as `f` tells. -/
structure Passed (f : Scan → Text → Bool) (start : Cursor) (bs : Text) (s : Text) (c : Cursor) :
    Prop where
  ahead_eq : start.ahead = s ++ c.ahead
  eq_advanceBy : c = start.advanceBy s.length
  scan_eq {u : Text} (h : u <+: c.ahead) : f (.code bs) u = f (.code []) (s ++ u)

theorem passed_start (f : Scan → Text → Bool) (start : Cursor) : Passed f start [] [] start where
  ahead_eq := rfl
  eq_advanceBy := (advanceBy_zero start).symm
  scan_eq _ := rfl

theorem Passed.advanceBy (h : Passed f start bs s c) (hc : c.ahead = r ++ t)
    (hscan : ∀ u, u <+: t → f (.code cs) u = f (.code bs) (r ++ u)) :
    Passed f start cs (s ++ r) (c.advanceBy r.length) where
  ahead_eq := by rw [ahead_advanceBy, hc, List.drop_left, List.append_assoc, ← hc, h.ahead_eq]
  eq_advanceBy := by rw [List.length_append, ← advanceBy_advanceBy, ← h.eq_advanceBy]
  scan_eq {u} hu := by
    rw [ahead_advanceBy, hc, List.drop_left] at hu
    have hbehind : r ++ u <+: c.ahead := by
      rw [hc]
      exact (List.prefix_append_right_inj r).mpr hu
    rw [hscan u hu, h.scan_eq hbehind, List.append_assoc]

/-- The cursors are the same, and outside of brackets they are not behind a return. -/
def Inside (f : Scan → Text → Bool) (start : Cursor) (bs : Text) (c c' : Cursor) : Prop :=
  c' = c ∧ ∃ s, Passed f start bs s c ∧ (bs = [] → s.getLast? ≠ some CodeUnit.carriageReturn)

theorem inside_start (f : Scan → Text → Bool) (start : Cursor) : Inside f start [] start start :=
  ⟨rfl, [], passed_start f start, by simp⟩

/-- What is read on from the cursors does not end with a return. -/
theorem Inside.advanceBy (h : Inside f start bs c c') (hc : c.ahead = r ++ t)
    (hscan : ∀ u, u <+: t → f (.code cs) u = f (.code bs) (r ++ u))
    (hlast : cs = [] → r.getLast? ≠ some CodeUnit.carriageReturn) (hzero : cs = [] → r = [] → bs = []) :
    Inside f start cs (c.advanceBy r.length) (c'.advanceBy r.length) := by
  obtain ⟨rfl, s, hs, hreturn⟩ := h
  refine ⟨rfl, s ++ r, hs.advanceBy hc hscan, fun hm => ?_⟩
  by_cases hr : r = []
  · rw [hr, List.append_nil]
    exact hreturn (hzero hm hr)
  · rw [List.getLast?_append_of_ne_nil s hr]
    exact hlast hm

theorem Inside.pass (hscan : ∀ {bs cs s t : Text}, Scan.Piece bs cs s t →
      ∀ u, u <+: t → f (.code cs) u = f (.code bs) (s ++ u))
    (h : Inside f start bs c c') (hc : c.ahead = r ++ t) (hpiece : Scan.Piece bs cs r t) :
    Inside f start cs (c.advanceBy r.length) (c'.advanceBy r.length) := by
  refine h.advanceBy hc (hscan hpiece) (fun hm hlast => ?_) fun hm hr => ?_
  · subst hm
    exact absurd (hpiece.isLineEnd_getLast hlast) (by decide)
  · subst hm hr
    cases hpiece
    rfl

/-- A text and itself, token by token. -/
def inFront (f : Scan → Text → Bool) (start : Cursor)
    (hscan : ∀ {bs cs s t : Text}, Scan.Piece bs cs s t →
      ∀ u, u <+: t → f (.code cs) u = f (.code bs) (s ++ u)) : InFront where
  place := Eq
  view := id
  view' := id
  behind := []
  inside := Inside f start
  view_eq h := h.symm
  place_advanceBy h _ := by rw [h.1]
  ahead_cases h := .inl (by rw [h.1, List.append_nil])
  closes _ := .inl rfl
  -- the two cursors are one, so only the scan of the piece passed over counts
  pass h hahead hpiece := h.pass hscan hahead hpiece
  sameToken h := by
    rw [h.1]
    exact .refl _
  spaces {bs c c'} h := by
    have hpassed := h.pass hscan (List.takeWhile_append_dropWhile (p := CodeUnit.isSpace)).symm
      (.plain fun u hu => CodeUnit.isPlain_of_isSpace (Text.takeWhile_pos u hu))
    rw [h.1] at hpassed ⊢
    exact hpassed
  endsItem h := by rw [h.1]

/-! ### Lines -/

/-- The cursors are the same, where a line starts or has ended. -/
def Between (start c c' : Cursor) : Prop :=
  c' = c ∧ ∃ s, Passed Scan.closes start [] s c ∧
    (c.ahead = [] ∨ s.getLast? ≠ some CodeUnit.carriageReturn)

theorem Inside.between (h : Inside Scan.closes start [] c c') : Between start c c' := by
  obtain ⟨hsame, s, hs, hreturn⟩ := h
  exact ⟨hsame, s, hs, .inr (hreturn rfl)⟩

theorem Between.inside (h : Between start c c') (hne : c.ahead ≠ []) :
    Inside Scan.closes start [] c c' := by
  obtain ⟨hsame, s, hs, hreturn⟩ := h
  exact ⟨hsame, s, hs, fun _ => hreturn.resolve_left hne⟩

/-- An empty line is passed. -/
theorem Between.line (h : Between start c c') (hempty : c.ahead.isEmptyLine = true) :
    Between start (c.advanceBy c.ahead.lineLength) (c'.advanceBy c'.ahead.lineLength) := by
  obtain ⟨rfl, s, hs, -⟩ := h
  obtain ⟨l, rest, hl, hlength, ⟨hahead, hrest⟩ | hahead⟩ := c'.ahead.exists_line
  · -- the last line is passed up to the end of the text
    have hend : c'.advanceBy c'.ahead.lineLength = c'.advanceBy l.length := by
      rw [hlength, advanceBy_of_length_le (Nat.le_trans (by rw [hahead]) (Nat.le_succ _)), hahead]
    have hclosed := Scan.closes_lineLength hempty
    have hnil : c'.ahead.drop c'.ahead.lineLength = [] := by
      rw [hahead]
      exact Text.drop_lineLength_last hl
    -- the scan is closed at the end of the text as it was in front of the line
    have hpassed : Passed Scan.closes start [] _ _ :=
      hs.advanceBy (r := l) (t := []) (by rw [hahead, List.append_nil]) fun u hu => ?_
    · rw [hend]
      refine ⟨rfl, _, hpassed, .inl ?_⟩
      rw [ahead_advanceBy, hahead, List.drop_length]
    · rw [List.prefix_nil.mp hu, List.append_nil, ← hahead, ← hclosed, hnil]
  · have hsplit : c'.ahead = (l ++ [CodeUnit.lineFeed]) ++ rest := by
      rw [hahead, List.append_assoc, List.singleton_append]
    have hlength' : c'.ahead.lineLength = (l ++ [CodeUnit.lineFeed]).length := by
      rw [hlength, List.length_append, List.length_singleton]
    rw [hlength']
    refine ⟨rfl, _, hs.advanceBy hsplit fun u hu => ?_, .inr ?_⟩
    · rw [Scan.closes_append, Scan.run_emptyLine_lineFeed (CodeUnit.lineFeed :: rest) hl
        (hahead ▸ hempty)]
    · rw [← List.append_assoc, List.getLast?_concat]
      decide

theorem Between.opens (h : Between start c c') (fresh : Prop) :
    c.Opens (.loose Eq) id (Inside Scan.closes start []) (Between start) (fun _ => False) fresh c' := by
  by_cases hnil : c.ahead = []
  · exact .ended hnil (by rw [h.1, hnil])
  · have hcode := (h.inside hnil).pass Scan.Piece.closes_eq
      (List.takeWhile_append_dropWhile (p := (· == CodeUnit.space)) (l := c.ahead)).symm
      (.plain fun u hu => CodeUnit.isPlain_of_class (p := (· == CodeUnit.space)) (by decide)
        (Text.takeWhile_pos u hu))
    have hsame := h.1
    subst hsame
    exact .line hnil hnil rfl hcode h.line Iff.rfl

/-- A text and itself, line by line. -/
def pairing (start : Cursor) : Pairing where
  toTokenPairing := (inFront Scan.closes start Scan.Piece.closes_eq).tokens
  width := id
  between := Between start
  gone _ := False
  fresh := True
  complaint_indentation _ _ := trivial
  width_zero := Pairing.id_zero
  width_lt := @Pairing.id_lt_id
  place_between h := congrArg Cursor.location h.1.symm
  sameStart h := by
    rw [h.1]
    exact .line (.refl _)
  -- a comment goes on to its line end, and the line end is no part of it
  comment {c c' found} h hfound := by
    obtain ⟨body, rest, hahead, rfl, hbody, hrest⟩ := Text.exists_of_comment? hfound
    refine Inside.advanceBy (r := CodeUnit.hash :: body) h hahead (fun u hu => ?_) (fun _ hlast => ?_)
      fun _ hnil => absurd hnil (List.cons_ne_nil _ _)
    · exact Scan.closes_behindComment hbody (Text.atLineEnd_of_isPrefix hu (Text.atLineEnd_of_avoids hrest))
    · rcases List.mem_cons.mp (List.mem_of_getLast? hlast) with hhash | hmem
      · exact absurd hhash (by decide)
      · exact absurd (hbody _ hmem) (by decide)
  between_of_inside h _ := h.between
  opens h := h.opens True
  gone_advanceBy h _ := h

theorem endTogether_pairing (start : Cursor) : (pairing start).EndTogether where
  ended h hnil := by rw [h.1, hnil]
  not_gone _ h := h
  fresh := trivial

end Cursor

namespace Script

variable {source : Text} {depth : Option Int} {block : Block}

/-- A script that is read closes the brackets and the strings that it opens. -/
theorem closes_of_parse (h : parse source depth = .ok block) :
    Scan.closes (.code []) source = true := by
  let start := Cursor.ofText source
  let p := Cursor.pairing start
  have hstart : p.between start start := (Cursor.inside_start Scan.closes start).between
  obtain ⟨room, -, d, journal, hrun, hnil⟩ := parse_eq_ok_iff.mp h
  have hpairs : Pairs p.reports room 0 _ _ start start p.LinesSoFar :=
    Pairing.pairs_topLines (Cursor.endTogether_pairing start) hstart
  have hself := hpairs (fileScope depth) (fileScope depth) [] [] rfl rfl trivial
  rw [hrun] at hself
  cases hself with
  | finished hlines _ =>
    -- what is left behind the last line opens nothing either
    obtain ⟨-, s, hs, -⟩ : Cursor.Between start _ _ := p.between_emptyLines hlines.2.1
    have hcloses := hs.scan_eq (List.prefix_refl _)
    rw [← hs.ahead_eq, Cursor.ahead_advanceBy, ← Text.nextCode, hnil] at hcloses
    exact hcloses.symm

end Script

end GDScript
