import GDScript.Proofs.Pairing.File
import GDScript.Proofs.Pairing.Layout

/-!
# Returns before line feeds

A script whose lines end with a return and a line feed is read as the one without the returns is:
with the same tree, in which every place counts the returns before it, or with the same error
(`Script.parse_withReturns`). This holds of failing runs because the two journals hold the same
errors at places that go together, and these are in the same order (`offset_lt_iff`), so the same
failure got furthest.
-/

namespace GDScript

open Grammar

/-! ### Texts and places with returns -/

namespace Text

/-- The text with a return before every line feed. -/
def withReturns (t : Text) : Text :=
  t.flatMap fun u =>
    if u == CodeUnit.lineFeed then [CodeUnit.carriageReturn, CodeUnit.lineFeed] else [u]

theorem withReturns_append (s t : Text) : withReturns (s ++ t) = withReturns s ++ withReturns t :=
  List.flatMap_append

theorem withReturns_lineFeed (t : Text) :
    withReturns (CodeUnit.lineFeed :: t)
      = CodeUnit.carriageReturn :: CodeUnit.lineFeed :: withReturns t := rfl

theorem withReturns_cons {u : CodeUnit} (hu : u ≠ CodeUnit.lineFeed) (t : Text) :
    withReturns (u :: t) = u :: withReturns t := by
  have hne : (u == CodeUnit.lineFeed) = false := beq_eq_false_iff_ne.mpr hu
  rw [withReturns, List.flatMap_cons, hne]
  rfl

theorem withReturns_ne_nil {t : Text} (h : t ≠ []) : withReturns t ≠ [] := by
  obtain ⟨u, t, rfl⟩ := List.exists_cons_of_ne_nil h
  by_cases hu : u = CodeUnit.lineFeed
  · rw [hu, withReturns_lineFeed]
    exact List.cons_ne_nil _ _
  · rw [withReturns_cons hu]
    exact List.cons_ne_nil _ _

end Text

namespace Location

/-- The place where a return stands before each line feed; there is one for each line before it. -/
def withReturns (l : Location) : Location := ⟨l.line, l.column, l.offset + l.line - 1⟩

/-- The place behind a text with returns. -/
theorem behind_withReturns (s : Text) :
    behind (Text.withReturns s).reverse = (behind s.reverse).withReturns := by
  induction s using List.reverseRecOn with
  | nil => rfl
  | append_singleton s u ih =>
    have hline : 1 ≤ (behind s.reverse).line := by
      rw [line_behind]
      exact Nat.le_add_right 1 _
    rw [Text.withReturns_append, behind_reverse_concat]
    by_cases hu : u = CodeUnit.lineFeed
    · have hunits : Text.withReturns [u] = [CodeUnit.carriageReturn] ++ [CodeUnit.lineFeed] := by
        rw [hu]
        rfl
      rw [hunits, ← List.append_assoc, behind_reverse_concat, behind_reverse_concat, ih, hu]
      generalize behind s.reverse = l at hline
      have hoffset : l.offset + l.line - 1 + 1 + 1 = l.offset + 1 + (l.line + 1) - 1 := by omega
      rw [after_lineFeed, after_lineFeed, after_of_ne (u := CodeUnit.carriageReturn) (by decide),
        withReturns, withReturns, hoffset]
    · have hunits : Text.withReturns [u] = [u] := Text.withReturns_cons hu []
      rw [hunits, behind_reverse_concat, ih]
      generalize behind s.reverse = l at hline
      have hoffset : l.offset + l.line - 1 + 1 = l.offset + 1 + l.line - 1 := by omega
      rw [after_of_ne hu, after_of_ne hu, withReturns, withReturns, hoffset]

/-- The places behind a beginning of the source, and behind the same beginning with returns. -/
def Returned (source : Text) (l l' : Location) : Prop :=
  ∃ s, s <+: source ∧ l = behind s.reverse ∧ l' = behind (Text.withReturns s).reverse

variable {source : Text} {l l' m m' : Location}

theorem Returned.eq (h : Returned source l l') : l' = l.withReturns := by
  obtain ⟨s, -, rfl, rfl⟩ := h
  exact behind_withReturns s

/-- Of two places of the source the same one comes first in both texts. -/
theorem Returned.offset_lt_iff (hl : Returned source l l') (hm : Returned source m m') :
    l.offset < m.offset ↔ l'.offset < m'.offset := by
  obtain ⟨s, hs, rfl, rfl⟩ := hl
  obtain ⟨t, ht, rfl, rfl⟩ := hm
  simp only [offset_behind]
  -- a longer start of the text stays longer, since every unit gives at least itself
  have hlength : ∀ s v : Text, s.length < (s ++ v).length ↔
      (Text.withReturns s).length < (Text.withReturns (s ++ v)).length := by
    intro s v
    rw [Text.withReturns_append, List.length_append, List.length_append]
    cases v with
    | nil => exact ⟨fun h => absurd h (Nat.lt_irrefl _), fun h => absurd h (Nat.lt_irrefl _)⟩
    | cons u v =>
      have hpos := List.length_pos_iff.mpr (Text.withReturns_ne_nil (List.cons_ne_nil u v))
      rw [List.length_cons]
      omega
  rcases List.prefix_or_prefix_of_prefix hs ht with ⟨v, rfl⟩ | ⟨v, rfl⟩
  · exact hlength s v
  · have hle : t.length ≤ (t ++ v).length := by
      rw [List.length_append]
      omega
    have hle' : (Text.withReturns t).length ≤ (Text.withReturns (t ++ v)).length := by
      rw [Text.withReturns_append, List.length_append]
      omega
    omega

end Location

/-! ### Errors with returns -/

namespace ParseError

/-- The error in the text with returns. -/
def withReturns (e : ParseError) : ParseError :=
  { e with
    location := e.location.withReturns
    frames := e.frames.map fun frame => ⟨frame.label, frame.location.withReturns⟩ }

/-- The errors of the two texts. -/
def Returned (source : Text) (e e' : ParseError) : Prop :=
  e' = e.withReturns ∧ Location.Returned source e.location e'.location

end ParseError

/-- The failure in the text with returns. -/
def Failure.withReturns : Failure → Failure
  | .parse e => .parse e.withReturns
  | failure => failure

/-- What is reported of a text and of the same text with returns. -/
def Reports.returned (source : Text) : Reports where
  place := Location.Returned source
  complaint k k' := k'.code = k.code ∧ k'.arguments = k.arguments ∧ k'.hint = k.hint
  error := ParseError.Returned source
  journal := List.Forall₂ (Event.Pairs (ParseError.Returned source))
  scope s s' := s' = { s with frames := s.frames.map fun f => ⟨f.label, f.location.withReturns⟩ }
  shift hk := hk
  raise {k k' l l' s s'} hk hl hs := by
    obtain ⟨hcode, harguments, hhint⟩ := hk
    refine ⟨?_, hl⟩
    rw [hs, hl.eq]
    simp only [Complaint.error, Complaint.message, ParseError.withReturns, hcode, harguments, hhint]
  tooDeep {l l' s s'} hl hs := by
    refine ⟨?_, hl⟩
    rw [hs, hl.eq]
    rfl
  nesting hs := by rw [hs]
  nest hs := by rw [hs]
  enter {s s' label l l'} hs hl := by rw [hs, hl.eq, List.map_cons]
  recoverable h := by
    rw [h.1]
    rfl
  -- which of two errors is further is decided by the offsets, and these keep their order
  further {e e' f f'} he hf _ := by
    have hlt := he.2.offset_lt_iff hf.2
    rw [Parser.further, Parser.further]
    simp only [hlt]
    split
    · exact hf
    · exact he
  record hv hj := .cons hv hj

/-- The same failure got furthest in both texts. -/
theorem Journal.furthest_returned {source : Text} {j j' : Journal}
    (h : List.Forall₂ (Event.Pairs (ParseError.Returned source)) j j') :
    (j.furthest = none ∧ j'.furthest = none) ∨
      ∃ e e', ParseError.Returned source e e' ∧ j.furthest = some e ∧ j'.furthest = some e' := by
  induction h with
  | nil => exact .inl ⟨rfl, rfl⟩
  | @cons v v' j j' hv _ ih =>
    simp only [furthest_cons]
    cases hv with
    | exceeded he => exact .inr ⟨_, _, he, rfl, rfl⟩
    | abandoned he => exact ih
    -- the offsets keep their order, so the same one of the two is kept
    | raised he | noted he =>
      rcases ih with ⟨hnone, hnone'⟩ | ⟨b, b', hb, hsome, hsome'⟩
      · rw [hnone, hnone']
        exact .inr ⟨_, _, he, rfl, rfl⟩
      · have hlt := he.2.offset_lt_iff hb.2
        have hgt := hb.2.offset_lt_iff he.2
        rw [hsome, hsome']
        simp only [Event.furthest, ← Nat.not_lt, hlt, hgt]
        split
        all_goals first | exact .inr ⟨_, _, he, rfl, rfl⟩ | exact .inr ⟨_, _, hb, rfl, rfl⟩

/-! ### The layout with returns -/

namespace Layout

/-- The layout with the same indentations, and a return before each line feed. -/
def returned : Layout where
  width := id
  returns := [CodeUnit.carriageReturn]
  width_zero := Pairing.id_zero
  width_lt := @Pairing.id_lt_id
  returns_eq := .inr rfl

theorem anew_returned (t : Text) : returned.anew t = returned.within t := by
  obtain ⟨m, ht, hm⟩ := t.exists_indentation
  rw [ht, anew_spaces _ _ hm, within_append _ (Text.spaces_ne_lineFeed _)]
  rfl

theorem within_returned (t : Text) : returned.within t = t.withReturns := by
  induction t with
  | nil => rfl
  | cons u t ih =>
    by_cases hu : u = CodeUnit.lineFeed
    · rw [hu, within_lineFeed, anew_returned, ih, Text.withReturns_lineFeed]
      rfl
    · rw [within_cons _ hu, ih, Text.withReturns_cons hu]

section Cursors

variable {source : Text} {c c' : Cursor}

/-- Cursors before the same text stand behind the same beginning. -/
theorem returned_place (hahead : c'.ahead = c.ahead.withReturns) (hc : c.StandsIn source)
    (hc' : c'.StandsIn source.withReturns) : Location.Returned source c.location c'.location := by
  have hsource : c.behind.reverse ++ c.ahead = source := hc.source_eq
  have hsource' : c'.behind.reverse ++ c'.ahead = source.withReturns := hc'.source_eq
  have hbehind : c'.behind.reverse = Text.withReturns c.behind.reverse := by
    rw [← hsource, Text.withReturns_append, hahead] at hsource'
    exact List.append_cancel_right hsource'
  refine ⟨c.behind.reverse, ⟨c.ahead, hsource⟩, ?_, ?_⟩
  · rw [List.reverse_reverse]
    exact hc.location_eq
  · rw [← hbehind, List.reverse_reverse]
    exact hc'.location_eq

/-- The advice is the same for lines that go together. -/
theorem tabHint_eq {t t' : Text} (h : t.SameStart t') :
    Complaint.tabHint t'.head? = Complaint.tabHint t.head? := by
  have hline : ∀ {s : Text}, (∀ u ∈ s.head?, u ∈ CodeUnit.lineEnds) →
      Complaint.tabHint s.head? = [] := by
    intro s hs
    rw [Complaint.tabHint, if_neg]
    intro htab
    exact absurd (hs _ (beq_iff_eq.mp htab)) (by decide)
  rcases h.head?_cases with h | ⟨hstop, hstop'⟩
  · rw [h]
  · rw [hline hstop, hline hstop']

end Cursors

/-- All that is reported is the same, apart from the places, which count the returns. -/
def returnedAccount (source : Text) : returned.Account source source.withReturns where
  reports := .returned source
  view := Location.withReturns
  view' := id
  view_eq h := h.eq
  complaint_eq hcode harguments hhint := ⟨hcode, harguments, hhint⟩
  complaint_indentation {relation level distance distance' t t'} hwidth hcode := by
    have hwidth' : t'.indentation = t.indentation := hwidth
    refine ⟨rfl, ?_, ?_⟩
    · simp only [Complaint.indentation, hwidth']
      rfl
    · exact tabHint_eq hcode
  place_inside h := returned_place (h.ahead_eq.trans (within_returned _)) h.stands h.stands'
  -- between two lines nothing is indented anew, so both ways to write a text agree
  place_between h := by
    refine returned_place (h.ahead_eq.trans ?_) h.stands h.stands'
    rw [anew_returned, within_returned]

end Layout

/-! ### Whole scripts -/

namespace Script

variable {source : Text} {depth : Option Int} {room : Nat} {c c' : Cursor}

theorem excerpt_eq {t t' : Text} (h : t.SameLine t') : excerpt t' = excerpt t := by
  -- both excerpts stop at the line end, whatever that is
  have hnil : ∀ {s : Text}, (∀ u ∈ s.head?, u ∈ CodeUnit.lineEnds) → ∀ n,
      (s.take n).takeWhile (!CodeUnit.isLineEnd ·) = [] := by
    intro s hs n
    cases s with
    | nil => rw [List.take_nil, List.takeWhile_nil]
    | cons u s =>
      have hu : u.isLineEnd = true := CodeUnit.isLineEnd_iff.mpr (hs u rfl)
      cases n <;> simp [hu]
  have htake : ∀ n, (t'.take n).takeWhile (!CodeUnit.isLineEnd ·)
      = (t.take n).takeWhile (!CodeUnit.isLineEnd ·) := by
    intro n
    induction h generalizing n with
    | stop hstop hstop' => rw [hnil hstop, hnil hstop']
    | unit hu _ ih =>
      cases n with
      | zero => rfl
      | succ n => rw [List.take_succ_cons, List.take_succ_cons, List.takeWhile_cons,
          List.takeWhile_cons, ih]
  exact htake 30

/-- What follows the lines of a file goes alike. -/
theorem pairs_fileEnd {lines lines' : Block}
    (hlines : lines' = lines.map Text.withReturns Location.withReturns)
    (hc : Layout.returned.Between source source.withReturns c c') :
    Pairs (Reports.returned source) room 0 (fileEnd lines) (fileEnd lines') c c'
      fun found found' _ _ => found' = found.map Text.withReturns Location.withReturns := by
  let a := Layout.returnedAccount source
  let p := Layout.returned.pairing a
  have hskip : Pairs p.reports room 0 (read Reader.skipEmptyLines : Grammar Rule Unit)
      (read Reader.skipEmptyLines) c c' fun _ _ d d' => True ∧ p.between d d' :=
    p.carries_skipEmptyLines c c' hc
  have hfinished : Pairs (Reports.returned source) room 0 finished finished c c'
      fun ended ended' d d' => ended' = ended ∧ (ended = false → d = c ∧ d' = c') := by
    refine Pairs.rewindIf (hskip.bind fun _ _ d d' hd =>
      pairs_read (.took ⟨hd.2.isEmpty_ahead, fun h => ?_⟩))
    rw [hd.2.isEmpty_ahead, h]
    exact ⟨rfl, rfl⟩
  have hrest : Pairs (Reports.returned source) room 0
      (do read Reader.skipEmptyLines; read trailing : Grammar Rule Block)
      (do read Reader.skipEmptyLines; read trailing) c c'
      fun found found' _ _ => found' = found.map Text.withReturns Location.withReturns := by
    refine hskip.bind fun _ _ d d' hd => pairs_read (.fault ⟨rfl, ?_, rfl⟩ (p.place_between hd.2))
    have hsame : d.ahead.SameLine d'.ahead := by
      rw [hd.2.ahead_eq, Layout.anew_returned]
      exact Layout.sameLine_within _ _
    rw [excerpt_eq hsame]
  refine hfinished.bind ?_
  -- where code is left, both cursors are back behind the lines, and the error there is the later one
  rintro _ ended d d' ⟨rfl, hstays⟩
  cases ended with
  | true => exact pairs_pure hlines
  | false =>
    obtain ⟨rfl, rfl⟩ := hstays rfl
    refine Pairs.blame hrest fun hj => ?_
    refine (Journal.furthest_returned hj).imp_right fun ⟨e, e', he, hsome, hsome'⟩ =>
      ⟨e, e', he, hsome, hsome', ?_⟩
    rw [← Nat.not_lt, ← Nat.not_lt, he.2.offset_lt_iff (p.place_between hc)]

/--
With a return before each line feed, a script is read with the same outcome: the same tree, with the
returns in its quotations and its places, or the same error, with the places that count the returns.
-/
theorem parse_withReturns (hsource : CodeUnit.carriageReturn ∉ source) :
    parse source.withReturns depth = match parse source depth with
      | .ok block => .ok (block.map Text.withReturns Location.withReturns)
      | .error failure => .error failure.withReturns := by
  let a := Layout.returnedAccount source
  let p := Layout.returned.pairing a
  have hstart : Layout.returned.Between source source.withReturns (Cursor.ofText source)
      (Cursor.ofText source.withReturns) := by
    have hfits : Layout.returned.Fits source := fun _ => hsource
    have hbetween := Layout.between_ofText hfits
    rw [Layout.anew_returned, Layout.within_returned] at hbetween
    exact hbetween
  have hquoted : p.quoted = Text.withReturns := funext Layout.within_returned
  have hfile : Pairs (Reports.returned source) (depthLimit depth).toNat 0 (call Rule.file)
      (call Rule.file) (Cursor.ofText source) (Cursor.ofText source.withReturns)
      fun found found' _ _ => found' = found.map Text.withReturns Location.withReturns := by
    refine Pairs.call rfl (p.place_between hstart) fun room' _ => ?_
    refine (Pairing.pairs_topLines (Layout.endTogether_pairing a) hstart).bind
      fun lines lines' d d' h => pairs_fileEnd ?_ h.2.1
    have hlines : lines'.map id id = lines.map p.quoted Location.withReturns := h.1
    rwa [Block.map_id, hquoted] at hlines
  -- the outcomes of the two files are those of `parse`, up to the journals
  have hrun := hfile ⟨[], 0, depthLimit depth⟩ ⟨[], 0, depthLimit depth⟩ [] [] rfl rfl .nil
  rw [parse, parse, run, run, Grammar.start, Grammar.start]
  generalize Grammar.run _ (call Rule.file) _ (Cursor.ofText source) [] = o,
    Grammar.run _ (call Rule.file) _ (Cursor.ofText source.withReturns) [] = o' at hrun ⊢
  cases hrun with
  | finished hfound _ => rw [hfound]
  | failed he _ =>
    rw [he.1]
    rfl

/-- The carriage return before the line feed in a string belongs to its body. -/
theorem parse_withReturns_string : CodeUnit.carriageReturn ∉ ("if a:\n  '\n'\n" : Text) ∧
    ∃ block, parse "if a:\n  '\n'\n" none = .ok block ∧
      parse "if a:\r\n  '\r\n'\r\n" none
        = .ok (block.map Text.withReturns Location.withReturns) := by
  have hok : (parse "if a:\n  '\n'\n" none).isOk = true := by decide +kernel
  have hsource : CodeUnit.carriageReturn ∉ ("if a:\n  '\n'\n" : Text) := by decide
  have hreturns : parse (Text.withReturns "if a:\n  '\n'\n") none = _ := parse_withReturns hsource
  cases hparse : parse "if a:\n  '\n'\n" none with
  | error failure =>
    rw [hparse] at hok
    exact Bool.noConfusion hok
  | ok block =>
    rw [hparse] at hreturns
    exact ⟨hsource, block, rfl, hreturns⟩

end Script

end GDScript
