import GDScript.Proofs.Pairing.InFront
import GDScript.Proofs.Position

/-!
# Scripts within longer ones

A script reads the same within a longer one. `Setting` says what may stand around it: behind it may
stand whatever is not indented, if a line ends in between. Nothing of the script may be left open, since
what stands behind it would close it. The two runs are a pairing, `Setting.pairing`, up to where the
script ends; blocks in it may take comments that stand behind it, which is all that the second run goes
further (`Pairing.Spent`).
-/

namespace GDScript

open Grammar

/-! ### Places -/

namespace Location

/-- The place with the text before it, which ends with a line. -/
def shift (before : Text) (l : Location) : Location :=
  ⟨l.line + before.count CodeUnit.lineFeed, l.column, l.offset + before.length⟩

theorem after_shift (before : Text) (l : Location) (u : CodeUnit) :
    (l.shift before).after u = (l.after u).shift before := by
  by_cases hu : u = CodeUnit.lineFeed
  · rw [hu, after_lineFeed, after_lineFeed, shift, shift, Nat.add_right_comm,
      Nat.add_right_comm l.offset]
  · rw [after_of_ne hu, after_of_ne hu, shift, shift, Nat.add_right_comm l.offset]

/-- Behind whole lines a text starts at the first column. -/
theorem behind_append {before : Text} (hbefore : before.IsLines) (s : Text) :
    behind (before ++ s).reverse = (behind s.reverse).shift before := by
  induction s using List.reverseRecOn with
  -- behind whole lines the next place is the first column of a line
  | nil =>
    have hcolumn : (behind before.reverse).column = 1 := by
      rcases List.eq_nil_or_concat' before with rfl | ⟨lines, u, rfl⟩
      · rfl
      · obtain rfl : u = CodeUnit.lineFeed := by simpa [Text.IsLines] using hbefore
        rw [behind_reverse_concat]
        rfl
    have hline := line_behind before
    have hoffset := offset_behind before
    rw [List.append_nil, shift]
    generalize behind before.reverse = l at hcolumn hline hoffset ⊢
    obtain ⟨line, column, offset⟩ := l
    obtain rfl : column = 1 := hcolumn
    obtain rfl : line = 1 + _ := hline
    obtain rfl : offset = _ := hoffset
    exact congrArg (Location.mk _ 1) (Nat.zero_add _).symm
  | append_singleton s u ih =>
    rw [← List.append_assoc, behind_reverse_concat, behind_reverse_concat, ih, after_shift]

end Location

/-! ### The setting of a script -/

/-- A line of the text ends in front of what stands behind it, and the text takes no part in that. -/
def Text.IsEndedBy (t behind : Text) : Prop :=
  behind.atLineEnd = true ∧
    (behind.head? = some CodeUnit.lineFeed → t.getLast? ≠ some CodeUnit.carriageReturn)

/-- What stands before and behind a script. -/
structure Setting (source : Text) where
  before : Text
  behind : Text
  /-- What stands behind the script does not go on with an `if` of it. -/
  fresh : Prop
  /-- The script ends with its last line, or a line ends in front of what stands behind it. -/
  ends : source.IsLines ∨ source.IsEndedBy behind
  /-- The script leaves nothing open, if anything stands behind it. -/
  closes : behind = [] ∨ Scan.closes (.code []) source = true
  isForeign : behind.nextCode.IsForeign fresh

namespace Setting

variable {source : Text} (x : Setting source) {bs cs : Text} {c c' : Cursor}

/-- The script with what stands around it. -/
def whole : Text := x.before ++ source ++ x.behind

/-- The cursors stand in front of the same text, where these brackets are open. -/
structure Inside (bs : Text) (c c' : Cursor) : Prop where
  ahead_eq : c'.ahead = c.ahead ++ x.behind
  stands : c.StandsIn source
  stands' : c'.StandsIn x.whole
  closes : x.behind = [] ∨ Scan.closes (.code bs) c.ahead = true
  /-- The line ends behind the cursor. -/
  ends : c.ahead.getLast? = some CodeUnit.lineFeed ∨ c.ahead.IsEndedBy x.behind

/-- What is left behind the script where only the longer one goes on. -/
structure Left (t : Text) : Prop where
  length_lt : t.length < x.behind.length
  nextCode_eq : t.nextCode = x.behind.nextCode

/-- The cursors stand in front of the same text, where a line starts or has ended. -/
structure Between (c c' : Cursor) : Prop where
  ahead_cases : (c'.ahead = c.ahead ++ x.behind ∧
    (x.behind = [] ∨ Scan.closes (.code []) c.ahead = true) ∧
    (c.ahead.IsLines ∨ c.ahead.IsEndedBy x.behind)) ∨ (c.ahead = [] ∧ x.Left c'.ahead)
  stands : c.StandsIn source
  stands' : c'.StandsIn x.whole

variable {x}

theorem location_eq (hbefore : x.before.IsLines) (hahead : c'.ahead = c.ahead ++ x.behind)
    (hc : c.StandsIn source) (hc' : c'.StandsIn x.whole) :
    c'.location = c.location.shift x.before := by
  have hsource : c.behind.reverse ++ c.ahead = source := hc.source_eq
  have hwhole : c'.behind.reverse ++ c'.ahead = x.before ++ source ++ x.behind := hc'.source_eq
  have hbehind : c'.behind.reverse = x.before ++ c.behind.reverse := by
    rw [hahead, ← List.append_assoc] at hwhole
    have hcancel := List.append_cancel_right hwhole
    have hsplit : x.before ++ source = x.before ++ c.behind.reverse ++ c.ahead := by
      rw [List.append_assoc, hsource]
    exact List.append_cancel_right (hcancel.trans hsplit)
  have hplace := Location.behind_append hbefore c.behind.reverse
  rw [← hbehind, List.reverse_reverse, List.reverse_reverse] at hplace
  rw [hc'.location_eq, hc.location_eq, hplace]

/-! ### Inside the lines -/

/-- What is left of a text ends as the text does. -/
theorem isEndedBy_of_append {s t behind : Text} (h : (s ++ t).IsEndedBy behind) :
    t.IsEndedBy behind := by
  refine ⟨h.1, fun hhead hlast => h.2 hhead ?_⟩
  rw [List.getLast?_append, hlast]
  rfl

/-- Both cursors pass what leaves so many brackets open. -/
theorem Inside.advanceBy (h : x.Inside bs c c') {s t : Text} (hc : c.ahead = s ++ t)
    (hcloses : Scan.closes (.code cs) t = Scan.closes (.code bs) (s ++ t))
    (hline : x.behind = [] ∨ t ≠ [] ∨ s.getLast? ≠ some CodeUnit.lineFeed) :
    x.Inside cs (c.advanceBy s.length) (c'.advanceBy s.length) where
  ahead_eq := by
    rw [Cursor.ahead_advanceBy, Cursor.ahead_advanceBy, h.ahead_eq, hc, List.append_assoc,
      List.drop_left, List.drop_left]
  stands := h.stands.advanceBy _
  stands' := h.stands'.advanceBy _
  closes := by
    rw [Cursor.ahead_advanceBy, hc, List.drop_left, hcloses, ← hc]
    exact h.closes
  ends := by
    rw [Cursor.ahead_advanceBy, hc, List.drop_left]
    rcases h.ends with hlast | hended
    · rw [hc] at hlast
      -- nothing left in the item: it ended a line, or the text behind begins with a line end
      by_cases hnil : t = []
      · rcases hline with hbehind | hne | hne
        · refine .inr ⟨?_, fun hhead => ?_⟩
          · rw [hbehind]
            rfl
          · rw [hbehind] at hhead
            cases hhead
        · exact absurd hnil hne
        · rw [hnil, List.append_nil] at hlast
          exact absurd hlast hne
      · rw [List.getLast?_append_of_ne_nil s hnil] at hlast
        exact .inl hlast
    · rw [hc] at hended
      exact .inr (isEndedBy_of_append hended)

theorem Inside.pass (h : x.Inside bs c c') {s t : Text} (hc : c.ahead = s ++ t)
    (hpiece : Scan.Piece bs cs s t) : x.Inside cs (c.advanceBy s.length) (c'.advanceBy s.length) := by
  have hcloses := hpiece.closes_eq (List.prefix_refl t)
  refine h.advanceBy hc hcloses ?_
  -- where nothing is left of the script, no bracket is open, so the piece has not ended a line
  rcases h.closes with hnil | hclosed
  · exact .inl hnil
  · refine .inr (or_iff_not_imp_left.mpr fun hnil hlast => ?_)
    rw [not_not] at hnil
    rw [hc, ← hcloses, hnil] at hclosed
    obtain rfl : cs = [] := List.isEmpty_iff.mp hclosed
    exact absurd (hpiece.isLineEnd_getLast hlast) (by decide)

/-- A text agrees with every longer one up to the end of its first line. -/
theorem sameLine_append {t behind : Text}
    (h : t.getLast? = some CodeUnit.lineFeed ∨ behind.atLineEnd = true) :
    t.SameLine (t ++ behind) := by
  induction t with
  | nil =>
    -- the item was one line without its line end: the text behind it ends that line
    refine .stop (by simp) fun u hu => CodeUnit.isLineEnd_iff.mp ?_
    have hhead : behind.head? = some u := hu
    have hend := h.resolve_left (by simp)
    rw [Text.atLineEnd, hhead] at hend
    exact hend
  | cons u t ih =>
    by_cases hu : u ∈ CodeUnit.lineEnds
    · exact .stop (by simpa using hu) (by simpa using hu)
    · refine .unit hu (ih (h.imp_left fun hlast => ?_))
      cases t with
      | nil =>
        obtain rfl : u = CodeUnit.lineFeed := by simpa using hlast
        exact absurd (by decide) hu
      | cons v t => rwa [List.getLast?_cons_cons] at hlast

theorem Inside.sameLine (h : x.Inside bs c c') : c.ahead.SameLine c'.ahead := by
  rw [h.ahead_eq]
  exact sameLine_append (h.ends.imp_right And.left)

/-- The gap on the line is the same in both texts. -/
theorem Inside.spaces (h : x.Inside bs c c') :
    x.Inside bs (c.advanceBy c.ahead.gapLength) (c'.advanceBy c'.ahead.gapLength) := by
  have hgap : c'.ahead.gapLength = c.ahead.gapLength := by
    rw [Text.gapLength, Text.gapLength, h.sameLine.takeWhile (by decide)]
  have hpassed : x.Inside bs _ _ := h.pass
    (List.takeWhile_append_dropWhile (p := CodeUnit.isSpace) (l := c.ahead)).symm
    (.plain fun u hu => CodeUnit.isPlain_of_isSpace (Text.takeWhile_pos u hu))
  rw [hgap]
  exact hpassed

theorem Inside.endsItem (h : x.Inside bs c c') :
    Statement.endsItem (c'.ahead.drop c'.ahead.gapLength)
      = Statement.endsItem (c.ahead.drop c.ahead.gapLength) := by
  have hbehind := h.spaces.sameLine
  rw [Cursor.ahead_advanceBy, Cursor.ahead_advanceBy] at hbehind
  exact Text.SameStart.endsItem (.line hbehind)

/-- A comment is passed up to the end of the line. -/
theorem Inside.comment (h : x.Inside [] c c') {found : Text} (hfound : c.ahead.comment? = some found) :
    x.Inside [] (c.advanceBy found.length) (c'.advanceBy found.length) := by
  obtain ⟨body, rest, hahead, rfl, hbody, hrest⟩ := Text.exists_of_comment? hfound
  refine h.advanceBy (s := CodeUnit.hash :: body) hahead ?_ (.inr (.inr fun hlast => ?_))
  · exact Scan.closes_behindComment hbody (Text.atLineEnd_of_avoids hrest)
  · rcases List.mem_cons.mp (List.mem_of_getLast? hlast) with hhash | hmem
    · exact absurd hhash (by decide)
    · exact absurd (hbody _ hmem) (by decide)

/-! ### Where lines start -/

theorem Inside.between (h : x.Inside [] c c') : x.Between c c' where
  ahead_cases := by
    refine .inl ⟨h.ahead_eq, h.closes, h.ends.imp_left fun hlast => ?_⟩
    rw [Text.IsLines, hlast]
    rfl
  stands := h.stands
  stands' := h.stands'

theorem Between.inside (h : x.Between c c') (hne : c.ahead ≠ []) : x.Inside [] c c' := by
  obtain ⟨hahead, hcloses, hends⟩ := h.ahead_cases.resolve_right fun hleft => hne hleft.1
  refine ⟨hahead, h.stands, h.stands', hcloses, hends.imp_left fun hlines => ?_⟩
  obtain ⟨u, hu⟩ := Option.ne_none_iff_exists'.mp (mt List.getLast?_eq_none_iff.mp hne)
  rw [Text.IsLines, hu] at hlines
  rw [hu]
  simpa using hlines

/-- At the start of the script, where nothing stands in front of it. -/
theorem between_ofText (hbefore : x.before = []) :
    x.Between (Cursor.ofText source) (Cursor.ofText x.whole) where
  ahead_cases := by
    have hwhole : x.whole = source ++ x.behind := by rw [whole, hbefore, List.nil_append]
    exact .inl ⟨hwhole, x.closes, x.ends⟩
  stands := Cursor.standsIn_ofText source
  stands' := Cursor.standsIn_ofText x.whole

/-- The first line goes on where a text without line feeds ends. -/
theorem drop_lineLength_append {l : Text} (hl : ∀ u ∈ l, u ≠ CodeUnit.lineFeed) (t : Text) :
    (l ++ t).drop (Text.lineLength (l ++ t)) = t.drop t.lineLength := by
  have hline : ∀ u ∈ l, (u != CodeUnit.lineFeed) = true := fun u hu => by simpa using hl u hu
  rw [Text.lineLength, Text.lineLength, List.takeWhile_append_of_pos hline, List.length_append,
    Nat.add_assoc, ← List.drop_drop, List.drop_left]

/-- Behind an empty line the same line of code is next. -/
theorem nextCode_drop_lineLength {t : Text} (h : t.isEmptyLine = true) :
    Text.nextCode (t.drop t.lineLength) = t.nextCode := by
  have hdrop : Text.isEmptyLine (Cursor.ofText t).ahead = true := h
  have hahead := congrArg Cursor.ahead (Cursor.advanceBy_droppedLength hdrop)
  rw [Cursor.ahead_advanceBy, Cursor.ahead_advanceBy, Cursor.ahead_advanceBy] at hahead
  exact hahead.symm

/-- An empty line in front of what stands behind the script, or of what is left of that. -/
theorem left_drop_lineLength {t : Text} (hlength : t.length ≤ x.behind.length) (hne : t ≠ [])
    (hnext : t.nextCode = x.behind.nextCode) (hempty : t.isEmptyLine = true) :
    x.Left (t.drop t.lineLength) where
  length_lt := by
    have hpos := List.length_pos_iff.mpr hne
    rw [List.length_drop, Text.lineLength]
    omega
  nextCode_eq := (nextCode_drop_lineLength hempty).trans hnext

/-- An empty line of the script is passed in both texts. -/
theorem Between.line (h : x.Between c c') (hne : c.ahead ≠ []) (hempty : c.ahead.isEmptyLine = true) :
    x.Between (c.advanceBy c.ahead.lineLength) (c'.advanceBy c'.ahead.lineLength) := by
  have hinside := h.inside hne
  have hclosed := Scan.closes_lineLength hempty
  refine ⟨?_, h.stands.advanceBy _, h.stands'.advanceBy _⟩
  rw [Cursor.ahead_advanceBy, Cursor.ahead_advanceBy, hclosed, hinside.ahead_eq]
  have hends := hinside.ends
  obtain ⟨l, rest, hl, -, ⟨hahead, -⟩ | hahead⟩ := c.ahead.exists_line
  · -- the last line of the script, behind which a line ends that the longer script goes on with
    have hended : c.ahead.IsEndedBy x.behind := by
      refine hends.resolve_left fun hlast => ?_
      rw [hahead] at hlast
      exact absurd rfl (hl _ (List.mem_of_getLast? hlast))
    have hnil : c.ahead.drop c.ahead.lineLength = [] := by
      rw [hahead]
      exact Text.drop_lineLength_last hl
    have hdrop : (c.ahead ++ x.behind).drop (Text.lineLength (c.ahead ++ x.behind))
        = x.behind.drop x.behind.lineLength := by
      rw [hahead]
      exact drop_lineLength_append hl _
    rw [hnil, hdrop]
    by_cases hbehind : x.behind = []
    · refine .inl ⟨?_, hinside.closes, .inl rfl⟩
      rw [hbehind]
      rfl
    · exact .inr ⟨rfl, left_drop_lineLength (Nat.le_refl _) hbehind rfl
        (Text.isEmptyLine_of_atLineEnd hended.1)⟩
  · refine .inl ?_
    rw [hahead, List.append_assoc, List.cons_append, Text.drop_lineLength_append hl,
      Text.drop_lineLength_append hl, ← hahead]
    refine ⟨rfl, hinside.closes, ?_⟩
    rcases hends with hlast | hended
    · refine .inl ?_
      by_cases hnil : rest = []
      · rw [hnil]
        rfl
      · rw [hahead, ← List.singleton_append, ← List.append_assoc,
          List.getLast?_append_of_ne_nil _ hnil] at hlast
        rw [Text.IsLines, hlast]
        rfl
    · rw [hahead, ← List.singleton_append, ← List.append_assoc] at hended
      exact .inr (isEndedBy_of_append hended)

/-- A line break is the same in both texts, if anything is left of the script. -/
theorem Inside.lineBreakLength_eq (h : x.Inside bs c c') (hne : c.ahead ≠ []) :
    c.ahead.lineBreakLength = 0 ↔ c'.ahead.lineBreakLength = 0 := by
  have hends := h.ends
  rw [h.ahead_eq]
  generalize c.ahead = t at hne hends
  obtain ⟨u, t, rfl⟩ := List.exists_cons_of_ne_nil hne
  cases t with
  | cons v t => rfl
  | nil =>
    by_cases hu : u = CodeUnit.carriageReturn
    · subst hu
      -- a return alone is no line break, nor does it belong to one
      have hended := hends.resolve_left (by decide)
      cases hbehind : x.behind with
      | nil => rfl
      | cons v t =>
        have hv : v ≠ CodeUnit.lineFeed := by
          rintro rfl
          exact hended.2 (by rw [hbehind]; rfl) rfl
        simp [Text.lineBreakLength, hv]
    · simp [Text.lineBreakLength, hu]

/-- In front of a line of code nothing is passed over. -/
theorem Left.isEmptyLine {t : Text} (h : x.Left t) : x.behind.isEmptyLine = true := by
  refine Bool.of_not_eq_false fun hcode => ?_
  have hlength := congrArg List.length h.nextCode_eq
  rw [Text.nextCode_of_isEmptyLine_eq_false hcode, Text.nextCode, List.length_drop] at hlength
  have hlt := h.length_lt
  omega

/-- Where a line of code stands behind the script at most, nothing of that is passed. -/
theorem Between.ahead_eq (hcode : x.behind = [] ∨ x.behind.isEmptyLine = false)
    (h : x.Between c c') : c'.ahead = c.ahead ++ x.behind := by
  rcases h.ahead_cases with ⟨hahead, -⟩ | ⟨-, hleft⟩
  · exact hahead
  · have hlt := hleft.length_lt
    have hempty := hleft.isEmptyLine
    rcases hcode with hbehind | hcode
    · rw [hbehind] at hlt
      exact absurd hlt (Nat.not_lt_zero _)
    · rw [hcode] at hempty
      exact Bool.noConfusion hempty

variable (x) in
/-- The cursor is further on than where the script ends, in lines that are passed over. -/
def Gone (c' : Cursor) : Prop :=
  x.behind.isEmptyLine = true ∧ c'.ahead.length < x.behind.length

theorem Between.opens (h : x.Between c c') (place : Location → Location → Prop) :
    c.Opens (.loose place) id (x.Inside []) x.Between x.Gone x.fresh c' := by
  by_cases hnil : c.ahead = []
  · have hleft : c'.ahead.length ≤ x.behind.length ∧ c'.ahead.nextCode = x.behind.nextCode ∧
        (c'.ahead.isEmptyLine = true → x.behind.isEmptyLine = true) := by
      rcases h.ahead_cases with ⟨hahead, -⟩ | ⟨-, hleft⟩
      · rw [hahead, hnil]
        exact ⟨Nat.le_refl _, rfl, id⟩
      · exact ⟨Nat.le_of_lt hleft.length_lt, hleft.nextCode_eq, fun _ => hleft.isEmptyLine⟩
    -- the item is used up: a line of the text behind is foreign to the rule that reads here
    by_cases hnil' : c'.ahead = []
    · exact .ended hnil hnil'
    · refine .beyond rfl hnil hnil' ?_ (fun hempty => ?_) fun hempty k hk =>
        ⟨hleft.2.2 hempty, ?_⟩
      · rw [hleft.2.1]
        exact x.isForeign
      · refine ⟨.inr ⟨hnil, ?_⟩, h.stands, h.stands'.advanceBy _⟩
        rw [Cursor.ahead_advanceBy]
        exact left_drop_lineLength hleft.1 hnil' hleft.2.1 hempty
      · have hpos := List.length_pos_iff.mpr hnil'
        have hle := hleft.1
        rw [Cursor.ahead_advanceBy, List.length_drop]
        omega
  · -- a line of the item, the same in both scripts
    have hinside := h.inside hnil
    have hwidth : c'.ahead.indentation = c.ahead.indentation := by
      rw [Text.indentation, Text.indentation, hinside.sameLine.takeWhile (by decide)]
    have hne : c'.ahead ≠ [] := by
      rw [hinside.ahead_eq]
      exact List.append_ne_nil_of_left_ne_nil hnil _
    have hcode : x.Inside [] _ _ := hinside.pass
      (List.takeWhile_append_dropWhile (p := (· == CodeUnit.space)) (l := c.ahead)).symm
      (.plain fun u hu => CodeUnit.isPlain_of_class (p := (· == CodeUnit.space)) (by decide)
        (Text.takeWhile_pos u hu))
    refine .line hnil hne hwidth ?_ (h.line hnil) (hinside.lineBreakLength_eq hnil)
    rw [hwidth]
    exact hcode

theorem not_gone (hcode : x.behind = [] ∨ x.behind.isEmptyLine = false) (c' : Cursor) :
    ¬x.Gone c' := by
  rintro ⟨hempty, hlt⟩
  rcases hcode with hbehind | hcode
  · rw [hbehind] at hlt
    exact absurd hlt (Nat.not_lt_zero _)
  · rw [hcode] at hempty
    exact Bool.noConfusion hempty

/-- What is kept of the places of the two texts. -/
structure Account (x : Setting source) where
  place : Location → Location → Prop
  view : Location → Location
  view' : Location → Location
  view_eq {l l' : Location} (h : place l l') : view' l' = view l
  place_advanceBy {bs : Text} {k : Nat} {c c' : Cursor} (h : x.Inside bs c c') (hk : k ≤ c.ahead.length) :
    place (c.advanceBy k).location (c'.advanceBy k).location
  place_between {c c' : Cursor} (h : x.Between c c') : place c.location c'.location

/-- The lines of a script, in front of what stands behind it. -/
def Account.inFront (a : x.Account) : InFront where
  place := a.place
  view := a.view
  view' := a.view'
  behind := x.behind
  inside := x.Inside
  view_eq := a.view_eq
  place_advanceBy := a.place_advanceBy
  ahead_cases h := .inl h.ahead_eq
  closes h := h.closes
  pass h := h.pass
  sameToken h := h.sameLine.sameToken
  spaces h := h.spaces
  endsItem h := h.endsItem

/-- A script and a longer one that it stands in, side by side. -/
def Account.pairing (a : x.Account) : Pairing where
  toTokenPairing := a.inFront.tokens
  width := id
  between := x.Between
  gone := x.Gone
  fresh := x.fresh
  complaint_indentation _ _ := trivial
  width_zero := Pairing.id_zero
  width_lt := @Pairing.id_lt_id
  place_between := a.place_between
  sameStart h := .line h.sameLine
  comment h hfound := h.comment hfound
  between_of_inside h _ := h.between
  -- a line behind the item can be the last of the block, never one more of its lines
  opens h := h.opens a.place
  gone_advanceBy {c'} h k := by
    refine ⟨h.1, ?_⟩
    rw [Cursor.ahead_advanceBy, List.length_drop]
    exact Nat.lt_of_le_of_lt (Nat.sub_le _ _) h.2

end Setting

end GDScript
