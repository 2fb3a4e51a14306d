import GDScript.Proofs.Indentation.Tab
import GDScript.Proofs.Pairing.Branches
import GDScript.Proofs.Pairing.Clipped
import GDScript.Proofs.Stretch.Script

/-!
# Items that are cut out of a script

The span of an item ends where it does, so the slice of the script that it gives is the text of the item
(`Cursor.StandsIn.slice_eq`). An item that stays on its line is cut out behind a gap (`Clip`), any other
one at the end of its line (`Setting`); in both cases the text is read up to its end in front of nothing
(`Script.ItemAt.takes_slice`). Such a text starts as the line does there, since there is no item in a gap
(`Script.yields_lineItem_of_isGap`).
-/

namespace GDScript

open Grammar
open Text (IsGap)

/-! ### Where only a gap is ahead -/

theorem Text.IsGap.avoids_isSpace {g : Text} (h : IsGap false g) : g.Avoids (!CodeUnit.isSpace ·) := by
  cases g with
  | nil => exact avoids_nil _
  | cons u g => exact avoids_cons.mpr (congrArg (! ·) (h u List.mem_cons_self))

/-- There is no item in a gap, since a word is none. -/
theorem Script.yields_lineItem_of_isGap {room : Nat} {c : Cursor} (indent : Nat)
    (hc : IsGap false c.ahead) : Yields room (lineItem indent) c fun _ _ => False := by
  refine (yields_lineItem_of_blank indent hc.avoids_isSpace).mono ?_
  rintro l _ ⟨word, gap, rest, hword, -, hahead⟩
  have hrest : IsGap false (word ++ rest) := fun u hu =>
    hc u (hahead ▸ List.mem_append_right gap hu)
  have hstart : Text.startsName (word ++ rest) = false := hrest.avoids_isSpace.of_blank (by decide)
  rw [Line.startsName_of_bareWord? hword rest] at hstart
  exact Bool.noConfusion hstart

/-! ### The same text elsewhere -/

namespace Cursor

/-- The same is ahead of both cursors. -/
def SameAhead (c c' : Cursor) : Prop := c'.ahead = c.ahead

variable {c c' : Cursor}

theorem SameAhead.advanceBy (h : c.SameAhead c') (k : Nat) :
    (c.advanceBy k).SameAhead (c'.advanceBy k) := by
  rw [SameAhead, ahead_advanceBy, ahead_advanceBy, h]

theorem SameAhead.opens (h : c.SameAhead c') (reports : Reports) (fresh : Prop) :
    c.Opens reports id SameAhead SameAhead (fun _ => False) fresh c' := by
  by_cases hnil : c.ahead = []
  · exact .ended hnil (h.trans hnil)
  · refine .line hnil (h ▸ hnil) (congrArg Text.indentation h) ?_ (fun _ => ?_) ?_
    all_goals rw [h]
    all_goals exact h.advanceBy _

/-- A text and the same text elsewhere, token by token. -/
def movedFront : InFront where
  place _ _ := True
  view := Location.nowhere
  view' := Location.nowhere
  behind := []
  inside _ := SameAhead
  view_eq _ := Location.nowhere_eq _ _
  place_advanceBy _ _ := trivial
  ahead_cases h := .inl (h.trans (List.append_nil _).symm)
  closes _ := .inl rfl
  pass h _ _ := h.advanceBy _
  sameToken h := by
    rw [h]
    exact .refl _
  spaces h := by
    rw [h]
    exact h.advanceBy _
  endsItem h := by rw [h]

/-- A text and the same text elsewhere, line by line. -/
def moved : Pairing where
  toTokenPairing := movedFront.tokens
  width := id
  between := SameAhead
  gone _ := False
  fresh := True
  complaint_indentation _ _ := trivial
  width_zero := Pairing.id_zero
  width_lt := @Pairing.id_lt_id
  place_between _ := trivial
  sameStart h := by
    rw [h]
    exact .line (.refl _)
  comment h _ := SameAhead.advanceBy h _
  between_of_inside h _ := h
  opens h := h.opens _ True
  gone_advanceBy h _ := h

end Cursor

namespace Script

variable {room : Nat} {scope : Scope} {c d : Cursor} {journal journal' : Journal} {l : Line} {s : Text}

/-- An item is the same wherever its text stands. -/
theorem takes_lineItem_of_run (hscope : scope.nesting = 0)
    (hrun : Grammar.run room (lineItem 0) scope c journal = .finished l d journal')
    (hs : c.ahead = s ++ d.ahead) :
    Takes room 0 (lineItem 0) s d.ahead fun v => v.bare = l.bare := by
  intro scope' c' i hscope' hahead
  have hpairs : Pairs Cursor.moved.reports room 0 (lineItem 0) (lineItem (Cursor.moved.width 0)) c c'
      (Cursor.moved.Agrees Cursor.moved.SameItem (Cursor.moved.inside [])) :=
    Pairing.pairs_lineItem (Cursor.moved.blockCarry room) (.inl (.inr trivial)) (hahead.trans hs.symm)
  have hboth := (hpairs.and_yields (yields_reaches room _ c) (yields_reaches room _ c'))
    scope scope' journal i (hscope.trans hscope'.symm) hscope trivial
  rw [hrun] at hboth
  generalize ho : Grammar.run room (lineItem (Cursor.moved.width 0)) scope' c' i = o at hboth
  cases hboth with
  | @finished _ v' _ d' _ i' h _ =>
    obtain ⟨h, -, k, hk, rfl⟩ := h
    obtain ⟨hsame, hd⟩ := h.resolve_right fun hspent => hspent.gone.elim
    -- the same is left ahead, so as much has been taken
    have hd : (c'.advanceBy k).ahead = d.ahead := hd
    obtain rfl : k = s.length := by
      have hlength := congrArg List.length hd
      rw [Cursor.ahead_advanceBy, List.length_drop, hahead, List.length_append] at hlength
      rw [hahead, List.length_append] at hk
      omega
    refine ⟨v', i', ho, ?_⟩
    calc v'.bare = v'.map id Location.nowhere := v'.bare_eq_map
      _ = l.map id Location.nowhere := hsame
      _ = l.bare := l.bare_eq_map.symm

end Script

/-! ### Slices -/

/-- The part of a text that a span is of. -/
def Span.slice (source : Text) (span : Span) : Text :=
  (source.take span.stop.offset).drop span.start.offset

namespace Cursor.StandsIn

variable {source s : Text} {c d : Cursor}

theorem take_offset (h : c.StandsIn source) : source.take c.location.offset = c.behind.reverse := by
  have hoffset : c.location.offset = c.behind.reverse.length := by
    rw [h.location_eq, ← Location.offset_behind, List.reverse_reverse]
  have hsource : c.behind.reverse ++ c.ahead = source := h.source_eq
  rw [hoffset, ← hsource, List.take_left]

/-- What stands between two cursors is the slice of their places. -/
theorem slice_eq (hc : c.StandsIn source) (hd : d.StandsIn source) (hs : c.ahead = s ++ d.ahead) :
    Span.slice source ⟨c.location, d.location⟩ = s := by
  have hsource : c.behind.reverse ++ c.ahead = source := hc.source_eq
  have hsource' : d.behind.reverse ++ d.ahead = source := hd.source_eq
  have hbehind : d.behind.reverse = c.behind.reverse ++ s := by
    rw [← hsource, hs, ← List.append_assoc] at hsource'
    exact List.append_cancel_right hsource'
  have hlength : c.location.offset = c.behind.reverse.length := by
    rw [hc.location_eq, ← Location.offset_behind, List.reverse_reverse]
  rw [Span.slice, hd.take_offset, hbehind, hlength, List.drop_left]

end Cursor.StandsIn

namespace Script

variable {room : Nat} {source : Text} {start d : Cursor} {l : Line}

/-- An item of a line that is not indented, between two cursors. -/
structure ItemAt (room : Nat) (source : Text) (start d : Cursor) (l : Line) : Prop where
  stands : start.StandsIn source
  isEmptyLine : start.ahead.isEmptyLine = false
  indentation : start.ahead.indentation = 0
  run : ∃ scope journal journal', scope.nesting = 0 ∧
    Grammar.run room (lineItem 0) scope start journal = .finished l d journal'

theorem ItemAt.of_yieldsIn {P : Line → Cursor → Prop} (h : ItemAt room source start d l)
    (hP : YieldsIn room 0 (lineItem 0) start P) : P l d := by
  obtain ⟨scope, journal, journal', hscope, hrun⟩ := h.run
  exact hP scope journal l d journal' hscope hrun

theorem ItemAt.slice_eq (h : ItemAt room source start d l) {s : Text} (hs : start.ahead = s ++ d.ahead) :
    l.span.slice source = s := by
  obtain ⟨k, -, hd⟩ := h.of_yieldsIn ((yields_reaches room _ start).inside 0)
  have hspan := h.of_yieldsIn ((yields_lineItem_span 0 start).inside 0)
  have hstands : d.StandsIn source := hd ▸ h.stands.advanceBy k
  rw [hspan]
  exact h.stands.slice_eq hstands hs

/-- What is followed up to its end is read alone. -/
theorem ItemAt.takes_of_follows {place : Location → Location → Prop} {strict : Prop} {E : Cursor → Prop}
    {Q : Line → Line → Cursor → Cursor → Prop} {s : Text} (h : ItemAt room source start d l)
    (hfollows : Follows place room 0 strict E (lineItem 0) (lineItem 0) (Cursor.ofText s) start Q)
    (hE : ¬E d) (hQ : ∀ l' d', Q l' l d' d → d'.ahead = [] ∧
      l.map id Location.nowhere = l'.map id Location.nowhere) :
    Takes room 0 (lineItem 0) s [] fun v => v.bare = l.bare := by
  obtain ⟨scope, journal, journal', hscope, hrun⟩ := h.run
  have hruns := hfollows scope scope journal journal rfl hscope trivial
  obtain ⟨l', d', i, hrun', hl'⟩ := (hruns.finished hrun).resolve_left hE
  obtain ⟨hnil, hsame⟩ := hQ l' d' hl'
  have htakes := takes_lineItem_of_run (s := s) hscope hrun' (by rw [hnil, List.append_nil]; rfl)
  rw [hnil] at htakes
  refine htakes.mono fun v hv => hv.trans ?_
  rw [l'.bare_eq_map, l.bare_eq_map, hsame]

/-- An item that nothing more of stands behind is read alone as it is read there. -/
theorem ItemAt.takes_slice (h : ItemAt room source start d l)
    (hends : Statement.endsItem (d.ahead.dropWhile CodeUnit.isSpace) = true)
    (hnext : d.ahead.atLineEnd = true → d.ahead.nextCode.indentation = 0) :
    Takes room 0 (lineItem 0) (l.span.slice source) [] fun v => v.bare = l.bare := by
  obtain ⟨s, hs, hcloses, hreturn⟩ := h.of_yieldsIn (yieldsIn_lineItem_closes room start)
  have hleft : ∀ t : Text, d.ahead = t ++ d.ahead → t = [] := fun t ht =>
    List.append_cancel_right (ht.symm.trans (List.nil_append _).symm)
  rw [h.slice_eq hs]
  -- an item within its line stops in front of the rest of the line, a block item at a line end
  by_cases honline : start.OnLine d
  · obtain ⟨s', hs', hstays⟩ := honline
    obtain rfl : s' = s := List.append_cancel_right (hs'.symm.trans hs)
    let x : Clip := ⟨s', d.ahead, hcloses, hstays, hends⟩
    have hc : x.Inside [] (Cursor.ofText s') start := .item hs hcloses hstays
    refine h.takes_of_follows (Clip.follows_lineItem 0 hc) (Nat.lt_irrefl _) ?_
    rintro l' d' ⟨hsame, hd⟩
    refine ⟨?_, hsame⟩
    cases hd with
    | item hd => exact hleft _ hd
    | gap _ hd => exact hd
  · have hended := (h.of_yieldsIn (yieldsIn_lineItem_end room start)).resolve_right honline
    let x : Setting s :=
      { before := start.behind.reverse
        behind := d.ahead
        fresh := False
        ends := .inr ⟨hended, fun _ => hreturn⟩
        closes := .inr hcloses
        isForeign := .inr ⟨hnext hended, False.elim⟩ }
    -- what is in front of the item, the item and what is behind it make up the source
    have hwhole : x.whole = source := by
      have hsource : start.behind.reverse ++ start.ahead = source := h.stands.source_eq
      rw [hs, ← List.append_assoc] at hsource
      exact hsource
    have hc : x.Inside [] (Cursor.ofText s) start :=
      ⟨hs, Cursor.standsIn_ofText s, hwhole ▸ h.stands, .inr hcloses, .inr ⟨hended, fun _ => hreturn⟩⟩
    refine h.takes_of_follows (Setting.follows_lineItem (a := x.placeless) hc) ?_ ?_
    · rintro (hpast | hline)
      · exact Nat.lt_irrefl _ hpast
      · exact honline hline
    · rintro l' d' ⟨hsame, hd⟩
      exact ⟨hleft _ hd.ahead_eq, hsame⟩

end Script

end GDScript
