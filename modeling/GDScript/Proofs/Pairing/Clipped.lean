import GDScript.Proofs.Pairing.Items

/-!
# Items that stay on their lines

An item that stays on its line is read alone as it is read there (`Clip.follows_lineItem`). Behind it
stands a gap, and then the end of the line, a comment or a semicolon, so all of its tokens are the same.
What is read with a block falls short of it: where such a rule expects the end of its header, the item
goes on, or it has ended, and then no block follows. The rule may find one in the longer text, but only
behind the item.
-/

namespace GDScript

open Grammar

/-! ### The text behind an item -/

namespace Text

/-- A text starts like a longer one, if that goes on with a stop. -/
theorem alike_append {stops behind : Text} (h : ∀ u ∈ behind.head?, u ∈ stops) (t : Text) :
    Alike stops t (t ++ behind) := by
  induction t with
  | nil => exact .stop (by simp) h
  | cons u t ih =>
    by_cases hu : u ∈ stops
    · exact .stop (by simpa using hu) (by simpa using hu)
    · exact .unit hu ih

end Text

/-- What nothing more of an item follows: a line end, a comment or a semicolon. -/
theorem Statement.mem_of_endsItem {t : Text} (h : endsItem t = true) :
    ∀ u ∈ t.head?, u ∈ CodeUnit.lineEnds ++ (";#" : Text) := by
  cases t with
  | nil => simp
  | cons u t =>
    have hhead : ∀ v : CodeUnit, List.isPrefixOf [v] (u :: t) = true → v = u := fun v hv =>
      (List.cons_prefix_cons.mp (List.isPrefixOf_iff_prefix.mp hv)).1
    rintro _ ⟨⟩
    rw [endsItem, Bool.or_eq_true, Bool.or_eq_true] at h
    rcases h with (hline | hhash) | hsemicolon
    · exact List.mem_append_left _ (CodeUnit.isLineEnd_iff.mp hline)
    · obtain rfl := hhead _ hhash
      decide
    · obtain rfl := hhead _ hsemicolon
      decide

/-- An item that stays on its line, and what stands behind it. -/
structure Clip where
  item : Text
  behind : Text
  /-- The item leaves nothing open. -/
  closes : Scan.closes (.code []) item = true
  staysOnLine : Scan.staysOnLine (.code []) item = true
  endsItem : Statement.endsItem (behind.dropWhile CodeUnit.isSpace) = true

namespace Clip

variable (x : Clip) {bs cs : Text} {c c' : Cursor}

/--
The cursors stand in front of the same text, where these brackets are open; or the item has ended, and
the second one stands behind the gap.
-/
inductive Inside (bs : Text) (c c' : Cursor) : Prop where
  | item (h : c'.ahead = c.ahead ++ x.behind) (hcloses : Scan.closes (.code bs) c.ahead = true)
      (hstays : Scan.staysOnLine (.code bs) c.ahead = true)
  | gap (hbs : bs = []) (h : c.ahead = []) (h' : c'.ahead = x.behind.dropWhile CodeUnit.isSpace)

/-- The cursor is further on than where the item ends. -/
def Past (d : Cursor) : Prop := d.ahead.length < x.behind.length

variable {x}

/-- Whoever is past the item stays so. -/
theorem lasts_past : Cursor.Lasts x.Past := fun _ _ hd h => Nat.lt_of_le_of_lt h.length_le hd

/-- Behind the gap no class of units is next but those that end an item. -/
theorem avoids_behindGap {p : CodeUnit → Bool}
    (hp : ∀ u ∈ CodeUnit.lineEnds ++ (";#" : Text), p u = false) :
    Text.Avoids p (x.behind.dropWhile CodeUnit.isSpace) :=
  Text.Alike.avoids_of_stop hp (Statement.mem_of_endsItem x.endsItem)

/-- What stands behind the item ends its last token. -/
theorem tokenEnd_behind : ∀ u ∈ x.behind.head?, u ∈ CodeUnit.tokenEnds := by
  intro u hu
  have hends := Statement.mem_of_endsItem x.endsItem
  cases hbehind : x.behind with
  | nil =>
    rw [hbehind] at hu
    cases hu
  | cons v t =>
    rw [hbehind] at hu hends
    obtain rfl : v = u := by simpa using hu
    -- a space ends a token as well as what ends the item
    by_cases hspace : v.isSpace = true
    · rw [CodeUnit.isSpace, Bool.or_eq_true, beq_iff_eq, beq_iff_eq] at hspace
      rcases hspace with rfl | rfl <;> decide
    · rw [List.dropWhile_cons, if_neg hspace] at hends
      exact (by decide : ∀ u ∈ CodeUnit.lineEnds ++ (";#" : Text), u ∈ CodeUnit.tokenEnds) v
        (hends v rfl)

/-! ### Tokens -/

/-- The item is still ahead, or it has ended outside all brackets and no quote is next. -/
theorem Inside.ahead_cases (h : x.Inside bs c c') :
    c'.ahead = c.ahead ++ x.behind ∨ bs = [] ∧ c.ahead = [] ∧ c'.ahead.Avoids CodeUnit.isQuote := by
  cases h with
  | item h => exact .inl h
  | gap hbs h h' =>
    refine .inr ⟨hbs, h, ?_⟩
    rw [h']
    exact avoids_behindGap (by decide)

/-- Whatever is left of the item closes the brackets that are open. -/
theorem Inside.closes (h : x.Inside bs c c') : Scan.closes (.code bs) c.ahead = true := by
  cases h with
  | item _ hcloses => exact hcloses
  | gap hbs h =>
    rw [hbs, h]
    rfl

/-- A piece of the item is the same piece in both texts. -/
theorem Inside.pass (h : x.Inside bs c c') {s t : Text} (hahead : c.ahead = s ++ t)
    (hpiece : Scan.Piece bs cs s t) :
    x.Inside cs (c.advanceBy s.length) (c'.advanceBy s.length) := by
  cases h with
  | item h hcloses hstays =>
    rw [hahead] at hcloses hstays
    refine .item ?_ ?_ ?_
    · rw [Cursor.ahead_advanceBy, Cursor.ahead_advanceBy, h, hahead, List.append_assoc,
        List.drop_left, List.drop_left]
    · rwa [Cursor.ahead_advanceBy, hahead, List.drop_left, hpiece.closes_eq (List.prefix_refl t)]
    · rwa [Cursor.ahead_advanceBy, hahead, List.drop_left, hpiece.staysOnLine_eq (List.prefix_refl t)]
  | gap hbs h h' =>
    obtain ⟨rfl, rfl⟩ := List.append_eq_nil_iff.mp (hahead.symm.trans h)
    -- nothing is left to pass but nothing
    subst hbs
    cases hpiece with
    | plain => exact .gap rfl h h'

/-- The tokens that are next are the same, for the item ends with one. -/
theorem Inside.sameToken (h : x.Inside bs c c') : c.ahead.SameToken c'.ahead := by
  cases h with
  | item h =>
    rw [h]
    exact Text.alike_append tokenEnd_behind c.ahead
  | gap _ h h' =>
    rw [h, h']
    refine .stop (by simp) fun u hu => ?_
    exact (by decide : ∀ u ∈ CodeUnit.lineEnds ++ (";#" : Text), u ∈ CodeUnit.tokenEnds) u
      (Statement.mem_of_endsItem x.endsItem u hu)

/-- Where only a gap is left of the item, the gap behind it belongs to that. -/
theorem Inside.spaces (h : x.Inside bs c c') :
    x.Inside bs (c.advanceBy c.ahead.gapLength) (c'.advanceBy c'.ahead.gapLength) := by
  have hdrop : ∀ t : Text, t.drop t.gapLength = t.dropWhile CodeUnit.isSpace :=
    Text.drop_length_takeWhile CodeUnit.isSpace
  cases hrest : c.ahead.dropWhile CodeUnit.isSpace with
  | nil =>
    have hspaces : ∀ u ∈ c.ahead, u.isSpace = true := by simpa using List.dropWhile_eq_nil_iff.mp hrest
    have hnil : (c.advanceBy c.ahead.gapLength).ahead = [] := by
      rw [Cursor.ahead_advanceBy, hdrop, hrest]
    -- only spaces are left, so no bracket is open any more
    have hbs : bs = [] := by
      have hcloses := h.closes
      rw [Scan.closes, Scan.run_plain fun u hu => CodeUnit.isPlain_of_isSpace (hspaces u hu)] at hcloses
      exact List.isEmpty_iff.mp hcloses
    refine .gap hbs hnil ?_
    rw [Cursor.ahead_advanceBy, hdrop]
    cases h with
    | item h => rw [h, List.dropWhile_append_of_pos hspaces]
    | gap _ _ h' => rw [h', Text.dropWhile_of_avoids (Text.avoids_dropWhile _ _)]
  | cons u t =>
    have hgap : c'.ahead.gapLength = c.ahead.gapLength := by
      cases h with
      | item h =>
        have hne : c.ahead.dropWhile CodeUnit.isSpace ≠ [] := by
          rw [hrest]
          exact List.cons_ne_nil u t
        rw [Text.gapLength, Text.gapLength, h, Text.takeWhile_append_of_dropWhile hne]
      | gap _ h =>
        rw [h] at hrest
        cases hrest
    rw [hgap]
    exact h.pass (List.takeWhile_append_dropWhile (p := CodeUnit.isSpace) (l := c.ahead)).symm
      (.plain fun u hu => CodeUnit.isPlain_of_isSpace (Text.takeWhile_pos u hu))

/-- The item ends in both texts at the same place. -/
theorem Inside.endsItem (h : x.Inside bs c c') :
    Statement.endsItem (c'.ahead.drop c'.ahead.gapLength)
      = Statement.endsItem (c.ahead.drop c.ahead.gapLength) := by
  have hspaces := h.spaces
  have havoids : Text.Avoids CodeUnit.isSpace (c'.ahead.drop c'.ahead.gapLength) := by
    rw [Text.gapLength, Text.drop_length_takeWhile]
    exact Text.avoids_dropWhile CodeUnit.isSpace c'.ahead
  rw [← Cursor.ahead_advanceBy] at havoids
  rw [← Cursor.ahead_advanceBy, ← Cursor.ahead_advanceBy]
  generalize c.advanceBy c.ahead.gapLength = d, c'.advanceBy c'.ahead.gapLength = d'
    at hspaces havoids
  -- the item goes on in both texts, or the gap behind it has been passed as well
  cases hspaces with
  | item h =>
    rw [h] at havoids ⊢
    cases hd : d.ahead with
    | nil =>
      rw [hd, List.nil_append] at havoids
      have hends := x.endsItem
      rw [Text.dropWhile_of_avoids havoids] at hends
      rw [List.nil_append, hends]
      rfl
    | cons u t => rfl
  | gap _ h h' =>
    rw [h, h', x.endsItem]
    rfl

/-- The tokens of an item, alone and on its line. -/
def inFront (x : Clip) : InFront where
  place _ _ := True
  view := Location.nowhere
  view' := Location.nowhere
  behind := x.behind
  inside := x.Inside
  view_eq _ := Location.nowhere_eq _ _
  place_advanceBy _ _ := trivial
  ahead_cases h := h.ahead_cases
  closes h := .inr h.closes
  pass h := h.pass
  sameToken h := h.sameToken
  spaces h := h.spaces
  endsItem h := h.endsItem

/-! ### Headers -/

variable {α : Type} {room : Nat}

/-- What an item and a longer text are compared by. -/
abbrev FallsShort (x : Clip) (room : Nat) (g g' : Grammar Rule α) (c c' : Cursor) : Prop :=
  Grammar.FallsShort x.inFront.place room 0 x.Past g g' c c'

theorem fails_fallsShort :
    x.inFront.tokens.reports.Fails (Outcome.FallsShort x.Past : Outcome α → Outcome α → Prop) :=
  Outcome.fails_fallsShort

/-- No header ends within an item, and behind an item there is no block without a line break. -/
theorem refuses_openingLine (header : Nat) {t : Text} (k : Nat → Grammar Rule α)
    (ht : t = [] ∨ t.atLineEnd = false ∧ t.Avoids (· == CodeUnit.hash)) :
    Refuses room 0 (Statement.openingLine header >>= k) t := by
  have hcomment : Takes room 0 (read Reader.comment : Grammar Rule (Option Text)) [] t fun _ => True := by
    refine takes_read (v := none) (Reader.comment_eq_none ?_) trivial
    -- at the end of the text there is no body to measure, and elsewhere no line end
    rcases ht with rfl | ⟨-, hhash⟩
    · exact Text.avoids_nil _
    · exact hhash
  refine refuses_bind (Takes.refuses_bind hcomment fun _ _ => ?_)
  have hended : Takes room 0 (read Reader.atLineEnd : Grammar Rule Bool) [] t (· = t.atLineEnd) :=
    takes_read rfl rfl
  refine Takes.refuses_bind hended fun _ hend => ?_
  rw [hend]
  rcases ht with rfl | ⟨hline, -⟩
  · have hbreak : Takes room 0 (read Reader.lineBreak : Grammar Rule Bool) [] [] fun _ => True :=
      takes_read rfl trivial
    exact Takes.refuses_bind hbreak fun _ _ => refuses_read rfl
  · rw [hline]
    exact refuses_read rfl

/-- What follows the end of a header is not read in the item, and in the longer text behind it. -/
theorem fallsShort_blockOpening {k k' : Nat → Grammar Rule α} {header : Nat}
    (hk' : ∀ width d, d.ahead.nextCode ≠ [] → d.ahead.nextCode.indentation = width →
      Yields room (k' width) d fun _ e => e.ahead.length < d.ahead.length) (hc : x.Inside [] c c') :
    x.FallsShort room (Statement.blockOpening header >>= k) (Statement.blockOpening header >>= k')
      c c' := by
  have hgap : Relates (.loose x.inFront.place) room 0 (Outcome.FallsShort x.Past)
      (skipSpaces >>= fun _ => Statement.openingLine header >>= k)
      (skipSpaces >>= fun _ => Statement.openingLine header >>= k') c c' := by
    have hskip : Pairs (.loose x.inFront.place) room 0 (skipSpaces : Grammar Rule Unit) skipSpaces c c'
        fun _ _ d d' => x.Inside [] d d' ∧ d.ahead.Avoids CodeUnit.isSpace := by
      refine pairs_read (.took ⟨hc.spaces, ?_⟩)
      rw [Cursor.ahead_advanceBy, Text.gapLength, Text.drop_length_takeWhile]
      exact Text.avoids_dropWhile CodeUnit.isSpace c.ahead
    refine hskip.then fails_fallsShort ?_
    rintro _ _ d d' ⟨hd, havoids⟩
    cases hahead : d.ahead with
    | nil =>
      -- the header ends behind the item, and then something more is read
      have hle : d'.ahead.length ≤ x.behind.length := by
        cases hd with
        | item h => rw [h, hahead, List.nil_append]
        | gap _ _ h' =>
          rw [h']
          exact (List.dropWhile_suffix _).length_le
      refine Refuses.fallsShort (hahead ▸ refuses_openingLine header k (.inl rfl)) ?_
      refine ((Statement.yields_openingLine header d').and (yields_reaches room _ d')).bind ?_
      rintro width e ⟨⟨-, hne, hwidth⟩, hreach⟩
      refine (hk' width e hne hwidth).mono fun _ _ hlt => ?_
      exact Nat.lt_of_lt_of_le hlt (Nat.le_trans hreach.length_le hle)
    | cons u t =>
      cases hd with
      | gap _ h =>
        rw [hahead] at h
        cases h
      | item h _ hstays =>
        -- within the item no line ends, and no comment starts
        rw [hahead, Scan.staysOnLine, beq_self_eq_true, Bool.true_and, Bool.and_eq_true,
          Bool.not_eq_true', Bool.or_eq_false_iff] at hstays
        obtain ⟨⟨hline, hhash⟩, -⟩ := hstays
        have hrefuses : d.ahead.atLineEnd = false ∧ d.ahead.Avoids (· == CodeUnit.hash) := by
          rw [hahead]
          exact ⟨hline, Text.avoids_cons.mpr hhash⟩
        refine Refuses.fallsShort (refuses_openingLine header k (.inr hrefuses)) ?_
        refine (Statement.yields_openingLine header d').bind fun _ _ hopening => ?_
        rw [h, hahead, List.cons_append] at hopening
        rcases hopening.1 with hended | hcomment
        · exact absurd (hended.symm.trans hline) (by decide)
        · rw [Option.some.inj hcomment] at hhash
          exact absurd hhash (by decide)
  intro s s' j j' hs hn hj
  rw [Statement.blockOpening_eq, run_bind_assoc, run_bind_assoc]
  exact hgap s s' j j' hs hn hj

/-! ### What is read with a block -/

/-- A block in the longer text lies behind the item. -/
theorem fallsShort_indentedBlock (header : Nat) (hc : x.Inside [] c c') :
    x.FallsShort room (call (Rule.indentedBlock header)) (call (.indentedBlock header)) c c' :=
  Relates.call rfl trivial fails_fallsShort fun _ _ => fallsShort_blockOpening
    (fun _ _ hne hwidth => yields_call fun _ => Script.yields_block_lt hne hwidth) hc

/-- So does a block behind a condition. -/
theorem fallsShort_condition (indent : Nat) (hc : x.Inside [] c c') :
    x.FallsShort room (call (Rule.condition indent)) (call (.condition indent)) c c' :=
  Relates.call rfl trivial fails_fallsShort fun room' _ =>
    TokenPairing.relates_condition (x.inFront.tokens.plainCarry room') fails_fallsShort
      (fun _ _ _ hd => (fallsShort_indentedBlock indent hd).bind lasts_past) hc

/-- A word and what it tests govern a block. -/
theorem fallsShort_test {rule : Rule Stmt} {indent : Nat} (word : Text)
    {f : Condition → Grammar Rule Stmt} (hword : ∀ u ∈ word, u.isInner = true)
    (hbody : rule.body = expectKeyword word >>= fun _ => call (.condition indent) >>= f)
    (hc : x.Inside [] c c') : x.FallsShort room (call rule) (call rule) c c' := by
  refine Relates.call rfl trivial fails_fallsShort fun room' _ => ?_
  change Relates _ room' 0 _ rule.body rule.body c c'
  rw [hbody]
  refine (TokenPairing.carries_expectKeyword (p := x.inFront.tokens) hword c c' hc).then
    fails_fallsShort fun _ _ _ _ hd => (fallsShort_condition indent hd.2).bind lasts_past

/-- So do the cases, since there is one at least. -/
theorem fallsShort_matchBody (indent : Nat) (subject subject' : Expr) (hc : x.Inside [] c c') :
    x.FallsShort room (Statement.matchBody indent subject) (Statement.matchBody indent subject')
      c c' := by
  refine fallsShort_blockOpening (fun width d _ _ => ?_) hc
  refine (yields_iterate_lt (Statement.turnsAdvance_caseTurn room width)
    (Statement.yields_caseTurn_kept room width) d).bind fun cases e hlt => ?_
  cases cases with
  | nil => exact yields_expected
  | cons branch found => exact yields_pure (hlt (List.cons_ne_nil branch found))

/-- A `match` goes on behind the item. -/
theorem fallsShort_matchStmt (indent : Nat) (hc : x.Inside [] c c') :
    x.FallsShort room (call (Rule.matchStmt indent)) (call (.matchStmt indent)) c c' :=
  Relates.call rfl trivial fails_fallsShort fun room' _ =>
    TokenPairing.relates_matchStmt (x.inFront.tokens.plainCarry room') fails_fallsShort
      (fun subject _ _ hd => fallsShort_matchBody indent subject _ hd) hc

/-- A function goes on behind the item. -/
theorem fallsShort_functionDecl (indent : Nat) (hc : x.Inside [] c c') :
    x.FallsShort room (call (Rule.functionDecl indent)) (call (.functionDecl indent)) c c' :=
  Relates.call rfl trivial fails_fallsShort fun room' _ =>
    TokenPairing.relates_functionDecl (x.inFront.tokens.plainCarry room') fails_fallsShort
      (fun _ _ _ hd => (fallsShort_indentedBlock indent hd).bind lasts_past) hc

/-- A class goes on behind the item. -/
theorem fallsShort_classDecl (indent : Nat) (hc : x.Inside [] c c') :
    x.FallsShort room (call (Rule.classDecl indent)) (call (.classDecl indent)) c c' :=
  Relates.call rfl trivial fails_fallsShort fun _ _ =>
    TokenPairing.relates_classDecl (p := x.inFront.tokens) fails_fallsShort
      (fun _ _ _ _ hd => (fallsShort_indentedBlock indent hd).bind lasts_past) hc

/-! ### Items -/

/-- What an item alone and on its line is compared by, where it is found. -/
abbrev Follows (x : Clip) (room : Nat) (g g' : Grammar Rule α) (c c' : Cursor)
    (V : α → α → Prop) : Prop :=
  Grammar.Follows x.inFront.place room 0 True x.Past g g' c c' fun v v' d d' =>
    V v v' ∧ x.Inside [] d d'

/-- What reads no block is read alone as on its line. -/
theorem follows_plain (rule : Rule α) (hrule : rule.IsPlain) (hfits : TokenPairing.Fits rule [])
    (hsame : x.inFront.tokens.rule rule = rule) (hc : x.Inside [] c c') :
    x.Follows room (call rule) (call rule) c c' (x.inFront.tokens.Found rule) := by
  have hpairs := x.inFront.tokens.plainCarry room rule [] c c' hrule hfits hc
  rw [hsame] at hpairs
  exact Pairs.follows hpairs fun _ _ _ _ => .inl

/-- The declarations with a block fall short, the others are read alike. -/
theorem follows_decl (indent : Nat) (hc : x.Inside [] c c') :
    x.Follows room (call (.decl indent)) (call (.decl indent)) c c' x.inFront.tokens.SameDecl :=
  Relates.call rfl trivial Outcome.fails_follows fun _ _ => follows_choice (List.cons_ne_nil _ _) <|
    .cons (follows_plain .classNameDecl trivial rfl rfl hc) <|
    .cons (follows_plain .extendsDecl trivial rfl rfl hc) <|
    .cons (follows_plain .signalDecl trivial rfl rfl hc) <|
    .cons (follows_plain .enumDecl trivial rfl rfl hc) <|
    .cons (fallsShort_classDecl indent hc).follows <|
    .cons (fallsShort_functionDecl indent hc).follows <|
    .cons (follows_plain .constDecl trivial rfl rfl hc) <|
    .cons (follows_plain .varDecl trivial rfl rfl hc) .nil

/-- The statements with a block fall short, the others are read alike. -/
theorem follows_stmt (indent : Nat) (hc : x.Inside [] c c') :
    x.Follows room (call (.stmt indent)) (call (.stmt indent)) c c' x.inFront.tokens.SameStmt :=
  Relates.call rfl trivial Outcome.fails_follows fun _ _ => follows_choice (List.cons_ne_nil _ _) <|
    .cons (fallsShort_test "if" (by decide) rfl hc).follows <|
    .cons (fallsShort_test "while" (by decide) rfl hc).follows <|
    .cons (fallsShort_test "for" (by decide) rfl hc).follows <|
    .cons (fallsShort_matchStmt indent hc).follows <|
    .cons (follows_plain .returnStmt trivial rfl rfl hc) <|
    .cons (follows_plain .assignStmt trivial rfl rfl hc) <|
    .cons (follows_plain .passStmt trivial trivial rfl hc) .nil

/-- An item that stays on its line is read alone as it is read there. -/
theorem follows_lineItem (indent : Nat) (hc : x.Inside [] c c') :
    x.Follows room (Script.lineItem indent) (Script.lineItem indent) c c'
      x.inFront.tokens.SameItem := by
  rw [Script.lineItem_eq]
  exact relates_here_bind (follows_choice (List.cons_ne_nil _ _) <|
    .cons (InFront.follows_spanned (fun h h' hsame => TokenPairing.sameItem_decl h h' hsame) trivial
      (follows_decl indent hc)) <|
    .cons (InFront.follows_spanned (fun h h' hsame => TokenPairing.sameItem_stmt h h' hsame) trivial
      (follows_stmt indent hc)) <|
    .cons (InFront.follows_spanned (fun h h' hsame => TokenPairing.sameItem_expr h h' hsame) trivial
      (follows_plain .expr trivial trivial rfl hc)) .nil)

end Clip

end GDScript
