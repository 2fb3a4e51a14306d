import GDScript.Proofs.Script.Statement
import GDScript.Proofs.Turn

/-!
# Lines and blocks

What is read of a piece of a script depends on what follows it, since a block ends by looking at the
next line of code. Behind a block that line is indented less (`Text.EndsBlock`); behind a line of a
block it may be indented as much, unless it goes on with an `if` (`Text.EndsRow`).

The items of a line and the lines of a block are read by loops, which are described by the turns
that the written text takes (`Loops`).
-/

namespace GDScript

open Grammar
open Text (IsGap IsName IsBreak IsIdle IsIdleLine Ahead Follows StartsItem spaces)

/-! ### What follows a piece -/

namespace Text

/-- A comment that stands at the indentation of no block, or at one that ends deeper blocks. -/
abbrev EndsAt (isLevel : Nat → Prop) (w v : Nat) : Prop := ¬isLevel v ∨ v ≤ w

/-- The text behind a block: the next line of code is indented less. -/
abbrev EndsBlock (isLevel : Nat → Prop) (w : Nat) (rest : Text) : Prop :=
  Follows (fun v => ¬isLevel v ∨ v < w) (fun v _ => v < w) rest

/-- The next line of code after a line of a block is the next line of the block or ends it. -/
abbrev IsNextRow (w v : Nat) (t : Text) : Prop := v < w ∨ v = w ∧ StartsItem t

/-- The text behind a line of a block. -/
abbrev EndsRow (isLevel : Nat → Prop) (w : Nat) (rest : Text) : Prop :=
  Follows (EndsAt isLevel w) (IsNextRow w) rest

/-- The text behind a branch that `elif` may not go on with. -/
abbrev EndsElifs (isLevel : Nat → Prop) (w : Nat) (rest : Text) : Prop :=
  Follows (EndsAt isLevel w) (fun v t => v ≤ w ∧ (v = w → startsWord "elif" t = false)) rest

/-- The text behind what a header governs: the next line of code is not indented more than it. -/
abbrev EndsBody (isLevel : Nat → Prop) (w : Nat) (rest : Text) : Prop :=
  Follows (EndsAt isLevel w) (fun v _ => v ≤ w) rest

variable {isLevel : Nat → Prop} {w : Nat} {rest : Text}

theorem EndsRow.endsElifs (h : EndsRow isLevel w rest) : EndsElifs isLevel w rest := by
  refine Follows.mono h (fun _ hv => hv) fun v t hv => ?_
  rcases hv with hv | ⟨rfl, ht⟩
  · exact ⟨by omega, fun heq => absurd heq (by omega)⟩
  · exact ⟨Nat.le_refl v, fun _ => ht.not_branch _ (by decide)⟩

theorem EndsElifs.endsBody (h : EndsElifs isLevel w rest) : EndsBody isLevel w rest :=
  Follows.mono h (fun _ hv => hv) fun _ _ hv => hv.1

theorem EndsBody.endsBlock (h : EndsBody isLevel w rest) {w' : Nat} (hw : w < w') :
    EndsBlock isLevel w' rest :=
  Follows.mono h (fun _ hv => hv.imp_right fun hle => by omega) fun _ _ hv => by omega

theorem EndsBlock.endsRow (h : EndsBlock isLevel w rest) : EndsRow isLevel w rest :=
  Follows.mono h (fun _ hv => hv.imp_right Nat.le_of_lt) fun _ _ hv => .inl hv

end Text

open Text (EndsBlock EndsRow EndsElifs EndsBody EndsAt IsNextRow)

namespace Script

variable {isLevel : Nat → Prop} {room w : Nat} {s t rest : Text}

/-! ### The items of a line -/

/-- Nothing, or a comment up to the end of the line. -/
def IsRemark (c : Text) : Prop :=
  c = [] ∨ ∃ body, c = CodeUnit.hash :: body ∧ ∀ u ∈ body, u.isLineEnd = false

theorem exists_remark (h : IsIdleLine (fun _ => True) t) :
    ∃ g c, t = g ++ c ∧ IsGap false g ∧ IsRemark c := by
  cases h with
  | blank hg => exact ⟨t, [], by rw [List.append_nil], hg, .inl rfl⟩
  | comment hg _ hc => exact ⟨_, _, rfl, hg, .inr ⟨_, rfl, hc⟩⟩

theorem IsRemark.avoids_isSpace {c : Text} (hc : IsRemark c) (hrest : rest.atLineEnd = true) :
    (c ++ rest).Avoids CodeUnit.isSpace := by
  rcases hc with rfl | ⟨body, rfl, -⟩
  · exact Text.avoids_isSpace_of_atLineEnd hrest
  · rfl

theorem IsRemark.endsItem {c : Text} (hc : IsRemark c) (hrest : rest.atLineEnd = true) :
    Statement.endsItem (c ++ rest) = true := by
  rcases hc with rfl | ⟨body, rfl, -⟩
  · rw [List.nil_append, Statement.endsItem, hrest]
    rfl
  · rfl

theorem takes_comment_nothing {n : Nat} (hrest : rest.Avoids (· == CodeUnit.hash)) :
    Takes room n (read Reader.comment : Grammar Rule _) [] rest fun _ => True :=
  takes_read (v := none) (Reader.comment_eq_none hrest) trivial

/-- A comment is passed over at the end of a line, as is its absence. -/
theorem takes_comment {n : Nat} {c : Text} (hc : IsRemark c) (hrest : rest.atLineEnd = true) :
    Takes room n (read Reader.comment : Grammar Rule _) c rest fun _ => True := by
  have hstop := Text.avoids_of_atLineEnd hrest
  rcases hc with rfl | ⟨body, rfl, hbody⟩
  · exact takes_comment_nothing (Text.avoids_hash_of_atLineEnd hrest)
  · have hfound := Text.comment?_append hbody hstop
    refine takes_read (v := some (Text.trim body)) ?_ trivial
    rw [Reader.comment, List.cons_append, hfound]
    rfl

theorem takes_lineTurn_done {items : List Line} {g c : Text} (hg : IsGap false g)
    (hc : IsRemark c) (hrest : rest.atLineEnd = true) :
    Takes room 0 (lineTurn w items) (g ++ c) rest (· = .done items) := by
  refine Takes.bind (takes_skipSpaces hg (hc.avoids_isSpace hrest)) fun _ _ => ?_
  refine Takes.bind_done (takes_comment hc hrest) fun _ _ => ?_
  refine Takes.look_bind (takes_look (P := (· = true)) hrest) fun found hfound => ?_
  rw [hfound]
  exact takes_pure rfl

/-- A semicolon, with the gaps on both sides of it. -/
theorem takes_lineTurn_semicolon {items : List Line} {g g' : Text} {P : Next (List Line) → Prop}
    (hg : IsGap false g) (hg' : IsGap false g') (hspace : (s ++ rest).Avoids CodeUnit.isSpace)
    (h : Takes room 0 (nextItem w items) s rest P) :
    Takes room 0 (lineTurn w items) (g ++ (";" ++ (g' ++ s))) rest P := by
  refine Takes.bind (takes_skipSpaces hg rfl) fun _ _ => ?_
  refine Takes.look_bind (takes_comment_nothing rfl) fun _ _ => ?_
  refine Takes.look_bind (takes_look (P := (· = false)) rfl) fun found hfound => ?_
  rw [hfound]
  refine Takes.bind (takes_consume ";") fun found hfound => ?_
  rw [hfound]
  exact Takes.bind (takes_skipSpaces hg' hspace) fun _ _ => h

/-- The line ends, or only a comment follows. -/
theorem takes_nextItem_nothing {items : List Line} {c : Text} (hc : IsRemark c)
    (hrest : rest.atLineEnd = true) :
    Takes room 0 (nextItem w items) [] (c ++ rest) (· = .again items) := by
  have hends : (Text.atLineEnd (c ++ rest) || List.isPrefixOf ("#" : Text) (c ++ rest)) = true := by
    rcases hc with rfl | ⟨body, rfl, -⟩
    · rw [List.nil_append, hrest, Bool.true_or]
    · rfl
  refine Takes.look_bind (takes_look (P := (· = true)) hends) fun found hfound => ?_
  rw [hfound]
  exact takes_pure rfl

theorem takes_nextItem {items : List Line} {P : Line → Prop} (hcode : (s ++ rest).StartsCode)
    (h : Takes room 0 (lineItem w) s rest P) :
    Takes room 0 (nextItem w items) s rest
      fun next => ∃ v, next = .again (v :: items) ∧ P v := by
  obtain ⟨u, r, hur, hu⟩ := hcode.exists_cons
  obtain ⟨-, hlineEnd, hhash⟩ := Text.startsGap_true_eq_false hu
  -- code is ahead, so the line goes on behind the semicolon
  have hends : (Text.atLineEnd (s ++ rest) || List.isPrefixOf ("#" : Text) (s ++ rest)) = false := by
    have hnone : List.isPrefixOf ("#" : Text) (s ++ rest) = false := by
      refine Text.isPrefixOf_cons_eq_false ?_
      rw [hur]
      exact hhash
    rw [hnone, hur, Bool.or_false]
    exact hlineEnd
  refine Takes.look_bind (takes_look (P := (· = false)) hends) fun found hfound => ?_
  rw [hfound]
  exact Takes.bind_done h fun v hv => takes_pure ⟨v, rfl, hv⟩

/-- The items are read: the first one, and the turns that take the others. -/
def ItemsRead (room w : Nat) (ls : List Line) (s rest : Text) : Prop :=
  ∃ l more s₁ s₂, ls = l :: more ∧ s = s₁ ++ s₂ ∧
    Takes room 0 (lineItem w) s₁ (s₂ ++ rest) (fun v => v.bare = l.bare) ∧
    ∀ found, Loops room 0 (lineTurn w) s₂ rest (fun x => Block.bare x = found)
      fun x => Block.bare x = (Block.bare more).reverse ++ found

theorem ItemsRead.takes {ls : List Line} (h : ItemsRead room w ls s rest) :
    Takes room 0 (line w) s rest fun v => Block.bare v = Block.bare ls := by
  obtain ⟨l, more, s₁, s₂, rfl, rfl, hfirst, hloops⟩ := h
  rw [line_eq]
  refine Takes.bind hfirst fun v hv => ?_
  refine Takes.bind_done ((hloops [l.bare]).takes ?_) fun items hitems => takes_pure ?_
  · rw [Block.bare_cons, hv]
    rfl
  · rw [Block.bare_reverse, hitems]
    simp

/-- The last item of a line, with what follows it on the line. -/
theorem itemsRead_last {l : Line} {c : Text} {g : Text} (hg : IsGap false g) (hc : IsRemark c)
    (hrest : rest.atLineEnd = true)
    (h : Takes room 0 (lineItem w) s (g ++ (c ++ rest)) fun v => v.bare = l.bare) :
    ItemsRead room w [l] (s ++ (g ++ c)) rest := by
  refine ⟨l, [], s, g ++ c, rfl, rfl, by rwa [List.append_assoc], fun found => ?_⟩
  refine loops_done fun x hx => (takes_lineTurn_done hg hc hrest).mono ?_
  rintro _ rfl
  exact ⟨x, rfl, hx⟩

/-- An item that goes up to the end of its line. -/
theorem itemsRead_of_takes {l : Line} (hrest : rest.atLineEnd = true)
    (h : Takes room 0 (lineItem w) s rest fun v => v.bare = l.bare) :
    ItemsRead room w [l] s rest := by
  have hread := itemsRead_last (g := []) (c := []) (Text.isGap_nil false) (.inl rfl) hrest h
  rwa [List.append_nil, List.append_nil] at hread

theorem itemsRead_item {l : Line} (h : l.Written room s) (ht : IsIdleLine (fun _ => True) t)
    (hrest : rest.atLineEnd = true) : ItemsRead room w [l] (s ++ t) rest := by
  obtain ⟨g, c, rfl, hg, hc⟩ := exists_remark ht
  obtain ⟨taken, left, rfl, hleft, htakes⟩ :=
    (takesToGap_lineItem (w := w) h hg (hc.endsItem hrest)).exists_left hg
  have hread := itemsRead_last hleft hc hrest htakes
  simpa only [List.append_assoc] using hread

/-- A semicolon at the end of a line is one more turn, in which no item is found. -/
theorem itemsRead_semicolon {l : Line} {g : Text} (h : l.Written room s) (hg : IsGap false g)
    (ht : IsIdleLine (fun _ => True) t) (hrest : rest.atLineEnd = true) :
    ItemsRead room w [l] (s ++ (g ++ (";" ++ t))) rest := by
  obtain ⟨g', c, rfl, hg', hc⟩ := exists_remark ht
  have hitem : TakesToGap room 0 (lineItem w) s g (";" ++ (g' ++ (c ++ rest)))
      fun v => v.bare = l.bare := takesToGap_lineItem h hg rfl
  obtain ⟨taken, left, rfl, hleft, htakes⟩ := hitem.exists_left hg
  refine ⟨l, [], s ++ taken, left ++ (";" ++ g') ++ c, rfl, ?_, ?_, fun found => ?_⟩
  · simp only [List.append_assoc]
  · simpa only [List.append_assoc] using htakes
  · have hne : left ++ ((";" : Text) ++ g') ≠ [] :=
      List.append_ne_nil_of_right_ne_nil _ (List.cons_ne_nil 0x3B _)
    -- the turn of the semicolon finds no item; the next one finds the end of the line
    have hlast : Loops room 0 (lineTurn w) c rest (fun x => Block.bare x = found)
        fun x => Block.bare x = found := by
      refine loops_done fun x hx => ?_
      refine (takes_lineTurn_done (g := []) (Text.isGap_nil false) hc hrest).mono ?_
      rintro _ rfl
      exact ⟨x, rfl, hx⟩
    refine Loops.again (fun x hx => ?_) hne hlast
    have hturn : Takes room 0 (lineTurn w x) (left ++ ((";" : Text) ++ (g' ++ [])))
        (c ++ rest) (· = .again x) := takes_lineTurn_semicolon (s := []) hleft hg'
      (hc.avoids_isSpace hrest) (takes_nextItem_nothing hc hrest)
    rw [List.append_nil] at hturn
    refine hturn.mono ?_
    rintro _ rfl
    exact ⟨x, rfl, hx⟩

/-- One more item in front: the part of the gap that it does not take goes to the turn behind it. -/
theorem ItemsRead.cons {l : Line} {ls : List Line} {g g' : Text} (h : l.Written room s)
    (hg : IsGap false g) (hg' : IsGap false g') (hcode : (t ++ rest).StartsCode)
    (hls : ItemsRead room w ls t rest) :
    ItemsRead room w (l :: ls) (s ++ (g ++ (";" ++ (g' ++ t)))) rest := by
  have hitem : TakesToGap room 0 (lineItem w) s g (";" ++ (g' ++ (t ++ rest)))
      fun v => v.bare = l.bare := takesToGap_lineItem h hg rfl
  obtain ⟨taken, left, rfl, hleft, htakes⟩ := hitem.exists_left hg
  obtain ⟨l', more, s₁, s₂, rfl, rfl, hfirst, hloops⟩ := hls
  rw [List.append_assoc] at hcode
  refine ⟨l, l' :: more, s ++ taken, left ++ (";" ++ (g' ++ s₁)) ++ s₂, rfl, ?_, ?_,
    fun found => ?_⟩
  · simp only [List.append_assoc]
  · simpa only [List.append_assoc] using htakes
  · have hne : left ++ ((";" : Text) ++ (g' ++ s₁)) ≠ [] :=
      List.append_ne_nil_of_right_ne_nil _ (List.cons_ne_nil 0x3B _)
    have hreverse : (Block.bare more).reverse ++ (l'.bare :: found)
        = (Block.bare (l' :: more)).reverse ++ found := by simp
    rw [← hreverse]
    -- the turn takes what the item before it has left of the gap, and the first of the other items
    refine Loops.again (fun x hx => ?_) hne (hloops (l'.bare :: found))
    refine (takes_lineTurn_semicolon hleft hg' hcode.avoids_isSpace
      (takes_nextItem hcode hfirst)).mono ?_
    rintro _ ⟨v, rfl, hv⟩
    exact ⟨_, rfl, by rw [Block.bare_cons, hv, hx]⟩

/-! ### The lines of a block -/

variable {ok : Nat → Prop} {f : Text} {required : Bool}

/-- A block passes over the idle lines of which no comment stands at its own indentation. -/
theorem drops_isPassedOver (hok : ∀ v, ok v → v ≠ w) : Text.Drops ok (isPassedOver w) where
  blank t ht := isPassedOver_of_isBlankLine ht
  comment t ht hv := by
    have hne : (t.indentation != w) = true := bne_iff_ne.mpr (hok _ hv)
    rw [isPassedOver, ht, hne, Bool.and_self, Bool.or_true]
  empty t ht := isEmptyLine_of_isPassedOver ht

theorem takes_skipPassedOver (h : Text.droppedLength (isPassedOver w) false (f ++ t) = f.length) :
    Takes room 0 (read (Reader.skip (Text.droppedLength (isPassedOver w) false)) :
      Grammar Rule Unit) f t fun _ => True :=
  takes_read (by rw [Reader.skip, h]) trivial

/-! What a line is taken for can be told from its text. -/

theorem lineKind_code (hcode : t.StartsCode) : lineKind w (spaces w ++ t) = .code := by
  have hne : (spaces w ++ t).isEmpty = false := by
    obtain ⟨u, r, rfl, -⟩ := hcode.exists_cons
    simp
  rw [lineKind, hne, Text.isCommentLine_code w hcode, Text.indentation_code w hcode]
  simp

theorem lineKind_misplaced {v : Nat} (hcode : t.StartsCode) (hv : v ≠ w) :
    lineKind w (spaces v ++ t) = .misplaced := by
  have hne : (spaces v ++ t).isEmpty = false := by
    obtain ⟨u, r, rfl, -⟩ := hcode.exists_cons
    simp
  have hother : (v == w) = false := beq_eq_false_iff_ne.mpr hv
  rw [lineKind, hne, Text.isCommentLine_code v hcode, Text.indentation_code v hcode, hother]
  rfl

theorem lineKind_comment {g : Text} (hg : IsGap false g) :
    lineKind w (g ++ CodeUnit.hash :: t) = .comment := by
  have hne : (g ++ CodeUnit.hash :: t).isEmpty = false := by simp
  have hline : Text.isCommentLine (g ++ CodeUnit.hash :: t) = true := Text.isCommentLine_append hg
  rw [lineKind, hne, hline]
  rfl

/-- A block does not pass over a comment at its own indentation. -/
theorem isPassedOver_comment {g : Text} (hg : IsGap false g) (hw : g.indentation = w) :
    isPassedOver w (g ++ CodeUnit.hash :: t) = false := by
  have hfirst : (g ++ CodeUnit.hash :: t).dropWhile CodeUnit.isSpace = CodeUnit.hash :: t :=
    Text.dropWhile_append hg rfl
  have hblank : Text.isBlankLine (g ++ CodeUnit.hash :: t) = false := by
    rw [Text.isBlankLine, hfirst]
    rfl
  rw [isPassedOver, hblank, Text.indentation_append rfl, hw]
  simp

/-- What is passed over ends before a line that is kept. -/
theorem droppedLength_idle {u : CodeUnit} (hok : ∀ v, ok v → v ≠ w) (hf : IsIdle ok f)
    (hkeep : isPassedOver w (u :: t) = false) :
    Text.droppedLength (isPassedOver w) false (f ++ u :: t) = f.length := by
  rw [(drops_isPassedOver hok).idle hf, Text.droppedLength, Bool.false_or, hkeep,
    if_neg Bool.false_ne_true]
  rfl

/-- A line of code at the indentation of the block. -/
theorem takes_blockLine_code {P : List Line → Prop} (hok : ∀ v, ok v → v ≠ w) (hf : IsIdle ok f)
    (hcode : (s ++ rest).StartsCode) (h : Takes room 0 (line w) s rest P) :
    Takes (room + 1) 0 (blockLine w required) (f ++ (spaces w ++ s)) rest
      fun found => ∃ v, found = some v ∧ P v := by
  -- the idle lines are passed over, and the indentation of the line is left
  have hdrop : Text.droppedLength (isPassedOver w) false (f ++ (spaces w ++ (s ++ rest)))
      = f.length := by
    have hp := drops_isPassedOver hok
    rw [hp.idle hf, hp.codeLine w hcode, Nat.add_zero]
  refine takes_optional (Takes.bind (takes_skipPassedOver ?_) fun _ _ => ?_)
  · rwa [List.append_assoc]
  · refine Takes.look_bind (takes_look (P := (· = .code)) ?_) fun kind hkind => ?_
    · rw [List.append_assoc]
      exact lineKind_code hcode
    · rw [hkind]
      refine Takes.bind (takes_read (P := fun _ => True) (v := ()) ?_ trivial) fun _ _ => ?_
      · rw [Reader.skip, List.length_replicate]
      · -- only the first line of a block must be there; a later one that fails ends the block
        cases required with
        | true => exact Takes.bind_done (takes_call h) fun v hv => takes_pure ⟨v, rfl, hv⟩
        | false => exact takes_attempt (takes_call h)

theorem takes_commentLine {g body : Text} (hg : IsGap false g) (hbody : ∀ u ∈ body, u.isLineEnd = false)
    (hrest : rest.atLineEnd = true) (span : Span) :
    Takes room 0 commentLine (g ++ CodeUnit.hash :: body) rest
      fun v => v.bare = (Line.comment (Text.trim body) span).bare := by
  have hfound := Reader.comment_append hbody (Text.avoids_of_atLineEnd hrest)
  refine Takes.bind (takes_skipSpaces hg rfl) fun _ _ => ?_
  refine Takes.look_bind takes_here fun start _ => ?_
  refine Takes.bind_done (takes_read (P := (· = some (Text.trim body))) hfound rfl) fun found hfound => ?_
  refine Takes.look_bind takes_here fun stop _ => takes_pure ?_
  rw [hfound]
  rfl

/-- A comment at the indentation of the block. -/
theorem takes_blockLine_comment {g body : Text} (hok : ∀ v, ok v → v ≠ w) (hf : IsIdle ok f)
    (hg : IsGap false g) (hw : g.indentation = w) (hbody : ∀ u ∈ body, u.isLineEnd = false)
    (hrest : rest.atLineEnd = true) (span : Span) :
    Takes room 0 (blockLine w required) (f ++ (g ++ CodeUnit.hash :: body)) rest fun found =>
      ∃ v, found = some v ∧ Block.bare v = [(Line.comment (Text.trim body) span).bare] := by
  -- a comment at the level of the block is a line of it, so it is not passed over
  have hdrop : ∀ c : Text, Text.droppedLength (isPassedOver w) false
      (f ++ (g ++ CodeUnit.hash :: c)) = f.length := by
    intro c
    have hkeep := isPassedOver_comment (t := c) hg hw
    cases hline : g ++ CodeUnit.hash :: c with
    | nil => exact absurd hline (by simp)
    | cons u r => exact droppedLength_idle hok hf (hline ▸ hkeep)
  refine takes_optional (Takes.bind (takes_skipPassedOver ?_) fun _ _ => ?_)
  · rw [List.append_assoc, List.cons_append]
    exact hdrop _
  · refine Takes.look_bind (takes_look (P := (· = .comment)) ?_) fun kind hkind => ?_
    · rw [List.append_assoc, List.cons_append]
      exact lineKind_comment hg
    · rw [hkind]
      exact Takes.bind_done (takes_commentLine hg hbody hrest span) fun v hv =>
        takes_pure ⟨[v], rfl, by rw [← hv]; rfl⟩

/-- No line of the block follows. -/
theorem takes_blockLine_nothing (hlevel : isLevel w)
    (hrest : Ahead (fun v => ¬isLevel v ∨ v < w) (fun v _ => v < w) rest) :
    Takes room 0 (blockLine w required) [] rest (· = none) := by
  have hok : ∀ v, (¬isLevel v ∨ v < w) → v ≠ w := by
    rintro v (hv | hv) rfl
    · exact hv hlevel
    · exact absurd hv (Nat.lt_irrefl v)
  have hahead := (drops_isPassedOver hok).ahead hrest
  -- the block looks at the line behind what it passes over, which it then leaves as it was
  have hsplit := List.take_append_drop (Text.droppedLength (isPassedOver w) false rest) rest
  have hlength : (rest.take (Text.droppedLength (isPassedOver w) false rest)).length
      = Text.droppedLength (isPassedOver w) false rest := by
    rw [List.length_take, Nat.min_eq_left (Text.droppedLength_le _ _ _)]
  rw [← hsplit]
  refine takes_optional_nothing (Takes.bind_done (takes_skipPassedOver ?_) fun _ _ => ?_)
  · rw [hsplit, hlength]
  · rcases hahead with hnil | ⟨v, r, hline, hr, hv⟩
    · refine Takes.look_bind (takes_look (P := (· = .ended)) ?_) fun kind hkind => ?_
      · rw [hnil]
        rfl
      · rw [hkind]
        exact takes_pure rfl
    · refine Takes.look_bind (takes_look (P := (· = .misplaced)) ?_) fun kind hkind => ?_
      · rw [List.nil_append, hline]
        exact lineKind_misplaced hr (by omega)
      · rw [hkind]
        exact Takes.bind_done takes_note fun _ _ => takes_pure rfl

end Script

end GDScript
