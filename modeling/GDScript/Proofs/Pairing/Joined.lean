import GDScript.Proofs.Pairing.Itself
import GDScript.Proofs.Pairing.Setting

/-!
# Scripts behind one another

Two scripts that are read can be read behind one another, when the first one ends with its last line
and the second one does not go on with it (`Script.parse_append`). The lines of the first one are
read in front of the second one as they are alone, since a script that is read closes what it opens
(`Script.closes_of_parse`). Where only the first one has ended, the block goes on with the lines of
the second one, which are read behind the first one as they are alone.
-/

namespace GDScript

open Grammar

/-! ### The turns of a block -/

namespace Script

variable {room level : Nat} {required : Bool} {lines : Block} {scope : Scope} {c : Cursor}
  {journal : Journal}

/-- Where the text has ended, a block finds no further line. -/
theorem run_blockTurns_ended (h : (passOver level c).ahead = []) :
    Grammar.run room (iterate (blockTurn level required) lines) scope c journal
      = .finished lines c journal := by
  -- at the end of the text no line of a block is left, whatever is asked for
  have hline : Leads room (blockLine level (required && lines.all Line.isComment)) c journal
      (fun found c' journal' => found = none ∧ c' = c ∧ journal' = journal) fun _ _ => False := by
    refine leads_blockLine (fun _ => ⟨rfl, rfl, rfl⟩) (fun hcomment => ?_) (fun hcode => ?_)
      (fun _ hcode => ?_) fun _ hcode => ?_
    · rw [h] at hcomment
      exact absurd hcomment (by decide)
    all_goals
      rw [h] at hcode
      exact absurd hcode (by decide)
  have hmeets := hline scope
  rw [run_iterate, Parser.iterate, Parser.turns, Parser.bind, blockTurn, run_bind, Parser.bind]
  generalize Grammar.run room (blockLine level _) scope c journal = o at hmeets ⊢
  cases o with
  | failed failure journal' => exact hmeets.elim
  | finished found c' journal' =>
    obtain ⟨rfl, rfl, rfl⟩ := hmeets
    dsimp only
    rw [run_pure]
    rfl

/-- Where a block finds no further line, the text has ended, or a line of code is next. -/
theorem yields_blockTurn_done :
    Yields room (blockTurn level required lines) c fun next c' =>
      match next with
      | .again _ => True
      | .done _ => c'.ahead.nextCode = [] → (passOver level c).ahead = [] := by
  -- a line of code that is not passed over is the next one
  have hcode : (passOver level c).ahead.isEmptyLine = false → c.ahead.nextCode ≠ [] := by
    intro hcode hnil
    rw [← nextCode_passOver level c, Text.nextCode_of_isEmptyLine_eq_false hcode] at hnil
    rw [hnil] at hcode
    exact absurd hcode (by decide)
  have hline : Yields room (blockLine level (required && lines.all Line.isComment)) c
      fun found c' => found = none → c'.ahead.nextCode = [] → (passOver level c).ahead = [] := by
    refine yields_of_leads fun journal => leads_blockLine (fun h _ _ => h) (fun _ => ?_)
      (fun h _ _ _ hnil => absurd hnil (hcode h)) (fun _ _ _ => ?_) fun _ h _ => ?_
    · exact leads_of_forall fun _ _ _ h => absurd h (by simp)
    · exact leads_of_forall fun _ _ _ h => absurd h (by simp)
    · refine leads_of_forall fun found _ _ hnone hnil => ?_
      rw [hnone, Option.isNone_none, if_pos rfl] at hnil
      exact absurd hnil (hcode h)
  rw [blockTurn]
  refine hline.bind fun found c' hfound => ?_
  cases found with
  | none => exact yields_pure fun hnil => hfound rfl hnil
  | some items => exact yields_pure trivial

/-- The lines of a block are those that its turns find. -/
theorem run_blockTurns_of_finished {c' : Cursor} {journal' : Journal}
    (h : Grammar.run room (block level required) scope c journal = .finished lines c' journal') :
    Grammar.run room (iterate (blockTurn level required) []) scope c journal
      = .finished lines.reverse c' journal' := by
  rw [block_eq, run_bind, Parser.bind] at h
  cases hrun : Grammar.run room (iterate (blockTurn level required) []) scope c journal with
  | failed failure journal'' =>
    rw [hrun] at h
    cases h
  | finished found c'' journal'' =>
    rw [hrun] at h
    dsimp only at h
    rw [run_pure] at h
    cases h
    rw [List.reverse_reverse]

end Script

/-! ### The settings of the scripts -/

namespace Setting

variable {source : Text}

/-- Behind whole lines the places of a script are shifted, if a line of code stands behind it at most. -/
def shifted (x : Setting source) (hbefore : x.before.IsLines)
    (hcode : x.behind = [] ∨ x.behind.isEmptyLine = false) : x.Account where
  place l l' := l' = l.shift x.before
  view := Location.shift x.before
  view' := id
  view_eq h := h
  place_advanceBy h hk := by
    refine location_eq hbefore ?_ (h.stands.advanceBy _) (h.stands'.advanceBy _)
    rw [Cursor.ahead_advanceBy, Cursor.ahead_advanceBy, h.ahead_eq, List.drop_append_of_le_length hk]
  place_between h := location_eq hbefore (h.ahead_eq hcode) h.stands h.stands'

/-- A script behind whole lines. -/
def following (source before : Text) : Setting source where
  before := before
  behind := []
  fresh := True
  ends := .inr ⟨rfl, by simp⟩
  closes := .inl rfl
  isForeign := .inl rfl

/-- A script and the same script behind whole lines. -/
def followingPairing (source before : Text) (hbefore : before.IsLines) : Pairing :=
  ((following source before).shifted hbefore (.inl rfl)).pairing

theorem endTogether_following {source before : Text} {hbefore : before.IsLines} :
    (followingPairing source before hbefore).EndTogether where
  ended h hnil := by
    rw [Between.ahead_eq (.inl rfl) h, hnil]
    rfl
  not_gone := not_gone (.inl rfl)
  fresh := trivial

/-- A script in front of a line of code that it does not go on with. -/
def preceding {s t : Text} (hlines : s.IsLines) (hcloses : Scan.closes (.code []) s = true)
    (hcode : t.StartsCode) (helif : Text.startsWord "elif" t = false)
    (helse : Text.startsWord "else" t = false) : Setting s where
  before := []
  behind := t
  fresh := True
  ends := .inl hlines
  closes := .inr hcloses
  isForeign := by
    have hempty : t.isEmptyLine = false := Text.isEmptyLine_code 0 hcode
    rw [Text.nextCode_of_isEmptyLine_eq_false hempty]
    exact .inr ⟨Text.indentation_code 0 hcode, fun _ => ⟨helif, helse⟩⟩

/-- A script and the same script in front of a line of code. -/
def precedingPairing {s t : Text} (hlines : s.IsLines) (hcloses : Scan.closes (.code []) s = true)
    (hcode : t.StartsCode) (helif : Text.startsWord "elif" t = false)
    (helse : Text.startsWord "else" t = false) : Pairing :=
  ((preceding hlines hcloses hcode helif helse).shifted rfl
    (.inr (Text.isEmptyLine_code 0 hcode))).pairing

end Setting

/-! ### The second script -/

namespace Pairing

variable {p : Pairing} {room : Nat} {base lines lines' : Block} {c c' : Cursor}

/-- The lines so far, behind those that only the second text has. -/
def LinesBehind (p : Pairing) (base lines lines' : Block) (c c' : Cursor) : Prop :=
  ∃ own, lines' = own ++ base ∧ p.SameBlock lines own ∧
    p.between (Script.passOver 0 c) (Script.passOver 0 c')

/-- A block at the top level goes on in the second text with the lines of the first one. -/
theorem pairs_blockTurns_behind (htogether : p.EndTogether)
    (h : p.between (Script.passOver 0 c) (Script.passOver 0 c')) :
    Pairs p.reports room 0 (iterate (Script.blockTurn 0 false) [])
      (iterate (Script.blockTurn 0 false) base) c c' (p.LinesBehind base) := by
  have hturn := Script.turnsAdvance_blockTurn room 0 false
  refine Pairs.loop (I := p.LinesBehind base) hturn hturn ⟨[], rfl, rfl, h⟩ ?_
  rintro lines _ d d' ⟨own, rfl, hlines, hd⟩
  -- where the first text finds no line, both cursors stay
  have hline : Pairs p.reports room 0 (Script.blockLine 0 false)
      (Script.blockLine (p.width 0) false) d d' fun found found' e e' =>
        p.NextLine found found' e e' ∧ (found = none → e = d ∧ e' = d') := by
    refine pairs_blockLine (p.blockCarry room) (.inr htogether.fresh) false ?_ fun hnil hne => ?_
    · rwa [p.width_zero]
    · rw [p.width_zero] at hne
      exact absurd (htogether.ended hd hnil) hne
  rw [p.width_zero] at hline
  refine hline.bind fun found found' e e' hfound => ?_
  obtain ⟨hfound, hstays⟩ := hfound
  match found, found', hfound with
  | none, none, _ =>
    obtain ⟨rfl, rfl⟩ := hstays rfl
    exact pairs_pure ⟨own, rfl, hlines, hd⟩
  | some items, some items', hfound =>
    obtain ⟨hitems, he⟩ := hfound.resolve_right fun h => htogether.not_gone e' h.gone
    have hover := p.between_passOver 0 he.between
    rw [p.width_zero] at hover
    refine pairs_pure ⟨items'.reverse ++ own, ?_, TokenPairing.SameBlock.append
      (TokenPairing.SameBlock.reverse hitems) hlines, hover⟩
    rw [List.append_assoc]

end Pairing

/-! ### Both scripts -/

namespace Script

variable {s t : Text} {depth : Option Int} {block block' : Block}

/-- Nothing is passed over in front of a line of code. -/
theorem passOver_code {level : Nat} {c : Cursor} (h : c.ahead.isEmptyLine = false) :
    passOver level c = c := by
  have hkept : isPassedOver level c.ahead = false := by
    rw [← Bool.not_eq_true]
    intro hpassed
    rw [isEmptyLine_of_isPassedOver hpassed] at h
    exact Bool.noConfusion h
  rw [passOver, Cursor.droppedLength_eq_zero (.inr hkept), Cursor.advanceBy_zero]

section Turns

variable (hlines : s.IsLines) (hcloses : Scan.closes (.code []) s = true) (hcode : t.StartsCode)
  (helif : Text.startsWord "elif" t = false) (helse : Text.startsWord "else" t = false)

/-- Where the first script has ended, the lines of the second one are read behind it. -/
theorem between_following {d d' : Cursor}
    (h : (Setting.preceding hlines hcloses hcode helif helse).Between d d')
    (hended : (passOver 0 d).ahead = []) :
    (Setting.following t s).Between (passOver 0 (Cursor.ofText t)) (passOver 0 d') := by
  let x := Setting.preceding hlines hcloses hcode helif helse
  let p := Setting.precedingPairing hlines hcloses hcode helif helse
  have hover : x.Between (passOver 0 d) (passOver 0 d') := p.between_passOver 0 h
  have hahead : (passOver 0 d').ahead = t := by
    rw [hover.ahead_eq (.inr (Text.isEmptyLine_code 0 hcode)), hended]
    rfl
  have hwhole : (Setting.following t s).whole = s ++ t := List.append_nil (s ++ t)
  -- the second script starts with code, so nothing is passed over in front of it
  rw [passOver_code (c := Cursor.ofText t) (Text.isEmptyLine_code 0 hcode)]
  refine ⟨.inl ⟨?_, .inl rfl, .inr ⟨rfl, by simp [Setting.following]⟩⟩,
    Cursor.standsIn_ofText t, ?_⟩
  · exact hahead.trans (List.append_nil t).symm
  · rw [hwhole]
    exact hover.stands'

/-- Where the first script has ended, a block finds the lines that it finds in the second one. -/
theorem run_blockTurns_following {room : Nat} {scope scope' : Scope} {more : Block}
    {d d' e : Cursor} {journal journal' : Journal}
    (h : (Setting.preceding hlines hcloses hcode helif helse).Between d d')
    (hended : (passOver 0 d).ahead = []) (hscope : scope.nesting = 0) (hscope' : scope'.nesting = 0)
    (hrun : Grammar.run room (iterate (blockTurn 0 false) []) scope (Cursor.ofText t) journal
      = .finished more e journal') (hnil : e.ahead.nextCode = [])
    (base : Block) (j : Journal) :
    ∃ e' j', Grammar.run room (iterate (blockTurn 0 false) base) scope' d' j
      = .finished (more.map id (Location.shift s) ++ base) e' j' ∧ e'.ahead.nextCode = [] := by
  let p := Setting.followingPairing t s hlines
  have hbehind : Pairs p.reports room 0 (iterate (blockTurn 0 false) [])
      (iterate (blockTurn 0 false) base) (Cursor.ofText t) d' (p.LinesBehind base) :=
    Pairing.pairs_blockTurns_behind Setting.endTogether_following
      (between_following hlines hcloses hcode helif helse h hended)
  have hrest := hbehind scope scope' journal j (hscope.trans hscope'.symm) hscope trivial
  rw [hrun] at hrest
  generalize Grammar.run room (iterate (blockTurn 0 false) base) scope' d' j = o at hrest ⊢
  -- the loop on the joined text finishes as the one on the second script did
  cases hrest with
  | @finished _ found _ e' _ j' hfound _ =>
    obtain ⟨own, rfl, hown, hover⟩ := hfound
    have hmore : own = more.map id (Location.shift s) := by
      have hmap : own.map id id = more.map id (Location.shift s) := hown
      rwa [Block.map_id] at hmap
    have hnext := Pairing.nextCode_eq_nil Setting.endTogether_following hover
      ((nextCode_passOver 0 e).trans hnil)
    rw [nextCode_passOver] at hnext
    exact ⟨e', j', by rw [hmore], hnext⟩

/--
A block finds the lines of the first script, and where that ends, the lines that are found in the
second one.
-/
theorem pairs_blockTurns_append {room : Nat} {scope : Scope} {more : Block} {e : Cursor}
    {journal : Journal} (hnesting : scope.nesting = 0)
    (hrun : Grammar.run room (iterate (blockTurn 0 false) []) scope (Cursor.ofText t) []
      = .finished more e journal) (hnil : e.ahead.nextCode = []) :
    Pairs (Setting.precedingPairing hlines hcloses hcode helif helse).reports room 0
      (iterate (blockTurn 0 false) []) (iterate (blockTurn 0 false) []) (Cursor.ofText s)
      (Cursor.ofText (s ++ t)) fun lines lines' d d' => d.ahead.nextCode = [] →
        lines' = more.map id (Location.shift s) ++ lines ∧ d'.ahead.nextCode = [] := by
  let p := Setting.precedingPairing hlines hcloses hcode helif helse
  have hstart : p.between (Cursor.ofText s) (Cursor.ofText (s ++ t)) :=
    (Setting.preceding hlines hcloses hcode helif helse).between_ofText rfl
  have hturn := turnsAdvance_blockTurn room 0 false
  refine Pairs.loop_beyond (I := p.LinesSoFar) hturn hturn
    ⟨rfl, hstart, fun h => absurd rfl h⟩ fun lines lines' d d' hd => ?_
  by_cases hended : (passOver 0 d).ahead = []
  · -- the first script has no further line, and the whole loop on the second one follows
    refine .inr fun scope' scope'' j j' hscope hzero _ => ?_
    have hsame : lines' = lines := by
      have hmap : lines'.map id id = lines.map id id := hd.1
      rwa [Block.map_id, Block.map_id] at hmap
    obtain ⟨e', j'', hrest, hnext⟩ := run_blockTurns_following hlines hcloses hcode helif helse
      hd.2.1 hended hnesting (hscope ▸ hzero) hrun hnil lines' j'
    rw [run_blockTurns_ended hended, hrest, hsame]
    exact .finished (fun _ => ⟨rfl, hnext⟩) trivial
  · refine .inl ?_
    -- while the first script has lines both runs read the same ones
    have hpairs : Pairs p.reports room 0 (blockTurn 0 false lines) (blockTurn 0 false lines')
        d d' (Next.Pairs (p.Agrees p.SameBlock p.Ended) p.LinesSoFar) :=
      Pairing.pairs_blockTurn (p.blockCarry room) (.inr trivial) false hd
        fun h => absurd h hended
    refine (hpairs.and_yields yields_blockTurn_done (yields_reaches room _ d')).mono ?_
    rintro (z | z) (z' | z') f f' ⟨hnext, hdone, -⟩
    · obtain ⟨hsame, hf⟩ := hnext.resolve_right fun h =>
        Setting.not_gone (.inr (Text.isEmptyLine_code 0 hcode)) f' h.gone
      exact .of_ended hsame hf
    · exact hnext
    · exact hnext
    · exact fun hnext => absurd (hdone hnext) hended

end Turns

/--
Two scripts that are read are also read behind one another: the lines of the first one stay as they
are, and those of the second one have other places.
-/
theorem parse_append (hlines : s.IsLines) (hcode : t.StartsCode)
    (helif : Text.startsWord "elif" t = false) (helse : Text.startsWord "else" t = false)
    (hs : parse s depth = .ok block) (ht : parse t depth = .ok block') :
    parse (s ++ t) depth = .ok (block ++ block'.map id (Location.shift s)) := by
  have hcloses := closes_of_parse hs
  let p := Setting.precedingPairing hlines hcloses hcode helif helse
  obtain ⟨room, hroom, e, journal, hrun, hnil⟩ := parse_eq_ok_iff.mp ht
  -- the top block of the whole text is that of the first script, and then that of the second
  have hpairs : ∀ room', (depthLimit depth).toNat = room' + 1 →
      Pairs p.reports room' 0 (call (Rule.block 0 false)) (call (Rule.block 0 false))
        (Cursor.ofText s) (Cursor.ofText (s ++ t)) fun found found' d d' =>
          d.ahead.nextCode = [] →
            found' = found ++ block'.map id (Location.shift s) ∧ d'.ahead.nextCode = [] := by
    intro room' hroom'
    obtain rfl : room = room' := Nat.succ.inj (hroom.symm.trans hroom')
    refine Pairs.call rfl rfl fun room' hroom' => ?_
    subst hroom'
    rw [run_call] at hrun
    have hturns := run_blockTurns_of_finished hrun
    have hblock := pairs_blockTurns_append hlines hcloses hcode helif helse rfl hturns hnil
    change Pairs _ _ _ (Script.block 0 false) (Script.block 0 false) _ _ _
    rw [block_eq]
    refine hblock.bind fun lines lines' d d' h => pairs_pure fun hnil => ?_
    obtain ⟨rfl, hnil'⟩ := h hnil
    refine ⟨?_, hnil'⟩
    rw [List.reverse_append, ← Block.map_reverse, List.reverse_reverse]
  obtain ⟨found, hparse, rfl⟩ := exists_of_pairs (r := p.reports)
    (Q := fun found found' => found' = found ++ block'.map id (Location.shift s)) rfl trivial hpairs hs
  exact hparse

/--
The first script ends with a bracket over two lines and a comment deeper than the top; in the second
one a string holds a line feed.
-/
theorem parse_append_if : ∃ block block',
    parse "if a:\n  (b\n)\n  # c\n" none = .ok block ∧ parse "d = '\n'" none = .ok block' ∧
      parse "if a:\n  (b\n)\n  # c\nd = '\n'" none
        = .ok (block ++ block'.map id (Location.shift "if a:\n  (b\n)\n  # c\n")) := by
  have hok : (parse "if a:\n  (b\n)\n  # c\n" none).isOk = true := by decide +kernel
  have hok' : (parse "d = '\n'" none).isOk = true := by decide +kernel
  cases hs : parse "if a:\n  (b\n)\n  # c\n" none with
  | error failure =>
    rw [hs] at hok
    exact Bool.noConfusion hok
  | ok block =>
    cases ht : parse "d = '\n'" none with
    | error failure =>
      rw [ht] at hok'
      exact Bool.noConfusion hok'
    | ok block' =>
      exact ⟨block, block', rfl, rfl,
        parse_append (by decide) (by decide) (by decide) (by decide) hs ht⟩

end Script

end GDScript
