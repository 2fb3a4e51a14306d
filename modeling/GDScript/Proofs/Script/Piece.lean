import GDScript.Proofs.Script.Branch

/-!
# Pieces are read back

`Piece.Reads` says of each kind of piece what its rule takes, behind which the text is as it is
behind such a piece. There is one lemma for each way to write a piece, and the induction over all of
them (`Piece.reads_of_written`) is on how the piece is written.

A loop over lines or branches finds each of them behind idle lines and the line break of the line
before, so the text of the loop is described with idle lines in front of it.
-/

namespace GDScript

open Grammar
open Text (IsGap IsName IsChain IsBreak IsIdle IsIdleLine Ahead Follows StartsItem spaces EndsBlock
  EndsRow EndsElifs EndsBody EndsAt IsNextRow)

/-- What the rule for a piece takes. -/
def Piece.Reads (isLevel : Nat → Prop) (room : Nat) : Piece → Text → Prop
  -- what may stand behind a piece depends on where its last line ends
  | .items w ls, s => ∀ rest, EndsRow isLevel w rest → Script.ItemsRead room w ls s rest
  | .row w ls, s => ∀ (f rest : Text) (required : Bool), isLevel w → IsIdle (fun v => ¬isLevel v) f →
      EndsRow isLevel w rest → Takes room 0 (Script.blockLine w required) (f ++ s) rest
        fun found => ∃ v, found = some v ∧ Block.bare v = Block.bare ls
  | .rows w block, s => ∀ (i rest : Text) (required : Bool) (found : Block), isLevel w →
      IsIdle (fun v => ¬isLevel v) i → EndsBlock isLevel w rest →
        Loops room 0 (Script.blockTurn w required) (i ++ s) rest (fun x => Block.bare x = found)
          fun x => Block.bare x = (Block.bare block).reverse ++ found
  | .body w block, s => ∀ rest, EndsBody isLevel w rest →
      Takes room 0 (call (Rule.indentedBlock w)) s rest fun v => Block.bare v = Block.bare block
  | .branch w c, s => ∀ (g rest : Text), IsGap false g → EndsBody isLevel w rest →
      Takes room 0 (Statement.condition w) (g ++ s) rest fun v => v.bare = c.bare
  -- the branches read so far stand in reverse
  | .elifs w cs, s => ∀ (rest : Text) (found : List Condition), EndsElifs isLevel w rest →
      Loops room 0 (Statement.elifTurn w) s rest (fun x => x.map Condition.bare = found)
        fun x => x.map Condition.bare = (cs.map Condition.bare).reverse ++ found
  | .otherwise w block, s => ∀ rest, EndsRow isLevel w rest →
      Takes room 0 (Statement.elseBranch w) s rest fun v => v.map Block.bare = block.map Block.bare
  | .cases w cs, s => ∀ (i rest : Text) (found : List Condition), IsIdle (fun _ => True) i →
      EndsBlock isLevel w rest →
        Loops room 0 (Statement.caseTurn w) (i ++ s) rest (fun x => x.map Condition.bare = found)
          fun x => x.map Condition.bare = (cs.map Condition.bare).reverse ++ found
  | .decl w d, s => ∀ rest, EndsRow isLevel w rest →
      Takes (room + 2) 0 (call (Rule.decl w)) s rest fun v => v.bare = d.bare
  | .stmt w st, s => ∀ rest, EndsRow isLevel w rest →
      Takes (room + 2) 0 (call (Rule.stmt w)) s rest fun v => v.bare = st.bare

namespace Piece

variable {isLevel : Nat → Prop} {room w : Nat} {s t rest : Text}

/-! ### Lines -/

/-- A declaration is the one item of its line. -/
theorem reads_declItem {d : Decl} {span : Span} (h : Reads isLevel room (.decl w d) s) :
    Reads isLevel (room + 2) (.items w [.decl d span]) s := by
  intro rest hrest
  exact Script.itemsRead_of_takes hrest.atLineEnd (Script.takes_lineItem_decl (h rest hrest))

/-- A statement is the one item of its line, since none of the words for declarations is ahead. -/
theorem reads_stmtItem {st : Stmt} {span : Span} (hw : Written isLevel room (.stmt w st) s)
    (h : Reads isLevel room (.stmt w st) s) :
    Reads isLevel (room + 2) (.items w [.stmt st span]) s := by
  intro rest hrest
  obtain ⟨word, hword, hopens⟩ := hw.exists_opens
  -- a statement opens with a word of its own or with an expression, so no declaration is tried
  obtain ⟨hstart, hwords⟩ := (hopens rest).startsItem_stmt hword
  exact Script.itemsRead_of_takes hrest.atLineEnd
    (Script.takes_lineItem_stmt hwords hstart.startsCode.avoids_isSpace (h rest hrest))

/-- A line of code is found behind its indentation. -/
theorem reads_code {ls : List Line} (hw : Written isLevel room (.items w ls) s)
    (h : Reads isLevel room (.items w ls) s) :
    Reads isLevel (room + 1) (.row w ls) (spaces w ++ s) := by
  intro f rest required hlevel hf hrest
  have hstart := hw.startsItem hrest.atLineEnd
  exact Script.takes_blockLine_code (fun v hv heq => hv (heq ▸ hlevel)) hf hstart.startsCode
    (h rest hrest).takes

/-- A comment is found at any indentation, and trimmed. -/
theorem reads_comment {text g pad pad' : Text} {span : Span} (hg : IsGap false g)
    (hw : g.indentation = w) (htext : text.IsCommentText)
    (hpad : ∀ u ∈ pad ++ pad', u.isBlank = true ∧ u.isLineEnd = false) :
    Reads isLevel room (.row w [.comment text span])
      (g ++ CodeUnit.hash :: (pad ++ text ++ pad')) := by
  intro f rest required hlevel hf hrest
  have htrim : Text.trim (pad ++ text ++ pad') = text :=
    Text.trim_append htext (fun u hu => (hpad u (List.mem_append_left _ hu)).1)
      fun u hu => (hpad u (List.mem_append_right _ hu)).1
  refine (Script.takes_blockLine_comment (fun v hv heq => hv (heq ▸ hlevel)) hf hg hw
    (htext.not_isLineEnd hpad) hrest.atLineEnd span).mono ?_
  rintro _ ⟨v, rfl, hv⟩
  rw [htrim] at hv
  exact ⟨v, rfl, hv⟩

/-- A line of a block is taken by one turn, with the idle lines before it. -/
theorem Reads.takes_blockTurn {ls : List Line} {f : Text} {required : Bool} {x found : Block}
    (h : Reads isLevel room (.row w ls) s) (hlevel : isLevel w)
    (hf : IsIdle (fun v => ¬isLevel v) f) (hrest : EndsRow isLevel w rest)
    (hx : Block.bare x = found) :
    Takes room 0 (Script.blockTurn w required x) (f ++ s) rest
      fun next => ∃ y, next = .again y ∧ Block.bare y = (Block.bare ls).reverse ++ found := by
  refine Takes.bind_done (h f rest _ hlevel hf hrest) ?_
  rintro _ ⟨v, rfl, hv⟩
  refine takes_pure ⟨_, rfl, ?_⟩
  rw [Block.bare_append, Block.bare_reverse, hv, hx]

/-- A line that is written is not empty, so the turn that takes it moves on. -/
theorem Written.row_ne_nil {ls : List Line} (h : Written isLevel room (.row w ls) s) : s ≠ [] := by
  cases h with
  | comment => simp
  | code hitems =>
    have hend : Text.atLineEnd [] = true := rfl
    have hstart := (hitems.startsItem hend).startsCode.ne_nil
    rw [List.append_nil] at hstart
    exact List.append_ne_nil_of_right_ne_nil _ hstart

/-- The lines of a block end where the next line of code is indented less. -/
theorem loops_blockTurn_done {required : Bool} {P : Block → Prop} (hlevel : isLevel w)
    (hrest : Ahead (fun v => ¬isLevel v ∨ v < w) (fun v _ => v < w) rest) :
    Loops room 0 (Script.blockTurn w required) [] rest P P := by
  refine loops_done fun x hx => ?_
  refine Takes.bind_done (Script.takes_blockLine_nothing hlevel hrest) ?_
  rintro _ rfl
  exact takes_pure ⟨x, rfl, hx⟩

/-- The last line of a block, behind which the block ends. -/
theorem reads_lastRow {ls : List Line} {f : Text} (hf : IsIdle (fun v => ¬isLevel v) f)
    (hw : Written isLevel room (.row w ls) s) (h : Reads isLevel room (.row w ls) s) :
    Reads isLevel room (.rows w ls) (f ++ s) := by
  intro i rest required found hlevel hi hrest
  have hne : i ++ f ++ s ≠ [] := List.append_ne_nil_of_right_ne_nil _ hw.row_ne_nil
  have hends : EndsRow isLevel w ([] ++ rest) := hrest.endsRow
  have hdone : Loops room 0 (Script.blockTurn w required) [] rest
      (fun x => Block.bare x = (Block.bare ls).reverse ++ found) _ :=
    loops_blockTurn_done hlevel hrest.ahead
  have hloops := Loops.again (fun x hx => h.takes_blockTurn hlevel (hi.append hf) hends hx) hne hdone
  rwa [List.append_nil, List.append_assoc] at hloops

/-- A line of a block with more lines behind it. -/
theorem reads_rows {ls : List Line} {more : Block} {f b : Text}
    (hf : IsIdle (fun v => ¬isLevel v) f) (hb : IsBreak b)
    (hw : Written isLevel room (.row w ls) s) (hmore : Written isLevel room (.rows w more) t)
    (h : Reads isLevel room (.row w ls) s) (hs : Reads isLevel room (.rows w more) t) :
    Reads isLevel room (.rows w (ls ++ more)) (f ++ s ++ (b ++ t)) := by
  intro i rest required found hlevel hi hrest
  have hne : i ++ f ++ s ≠ [] := List.append_ne_nil_of_right_ne_nil _ hw.row_ne_nil
  -- behind the line stand the others, of which the first one is at the same indentation
  have hnext : EndsRow isLevel w (b ++ (t ++ rest)) :=
    .cons hb (hmore.ahead_rows w more rfl rest hrest.endsRow)
  have hidle : IsIdle (fun v => ¬isLevel v) b := by
    have hidle := hb.isIdle (.nil : IsIdle (fun v => ¬isLevel v) [])
    rwa [List.append_nil] at hidle
  -- the lines are found in reverse, so those of the line go before what is found already
  have hreverse : (Block.bare more).reverse ++ ((Block.bare ls).reverse ++ found)
      = (Block.bare (ls ++ more)).reverse ++ found := by simp
  have hloops := hs b rest required ((Block.bare ls).reverse ++ found) hlevel hidle hrest
  rw [hreverse] at hloops
  have hall := Loops.again (fun x hx => h.takes_blockTurn hlevel (hi.append hf)
    (by rwa [List.append_assoc]) hx) hne hloops
  simpa only [List.append_assoc] using hall

/-- The rule for blocks takes all its lines. -/
theorem Reads.takes_block {block : Block} {required : Bool}
    (h : Reads isLevel room (.rows w block) s) (hlevel : isLevel w)
    (hrest : EndsBlock isLevel w rest) :
    Takes (room + 1) 0 (call (Rule.block w required)) s rest
      fun v => Block.bare v = Block.bare block := by
  refine takes_call ?_
  show Takes room 0 (Script.block w required) s rest _
  rw [Script.block_eq]
  refine Takes.bind_done ((h [] rest required [] hlevel .nil hrest).takes rfl) fun lines hlines => ?_
  refine takes_pure ?_
  rw [Block.bare_reverse, hlines]
  simp

/-! ### Headers -/

/-- The end of a header line; the indentation of the next line of code is found. -/
theorem takes_blockOpening {b f : Text} {w' : Nat} (ht : IsIdleLine (fun _ => True) t)
    (hb : IsBreak b) (hf : IsIdle (fun _ => True) f) (hs : s.StartsCode) (hw : w < w')
    (hrest : rest = f ++ (spaces w' ++ s)) :
    Takes room 0 (Statement.blockOpening w) (t ++ b) rest (· = w') := by
  obtain ⟨g, c, rfl, hg, hc⟩ := Script.exists_remark ht
  have hend : Text.atLineEnd (b ++ rest) = true := by rcases hb with rfl | rfl <;> rfl
  -- a line feed alone ends the line, or with a carriage return in front
  have hbreak : Takes room 0 (read Reader.lineBreak : Grammar Rule Bool) b rest fun _ => True := by
    refine takes_read (v := (Text.lineBreakLength (b ++ rest) != 0)) ?_ trivial
    rw [Reader.lineBreak, Text.lineBreakLength_append hb]
  have hindent : Takes room 0 (read (Reader.bodyIndent w) : Grammar Rule Nat) [] rest (· = w') := by
    refine takes_read ?_ rfl
    rw [hrest]
    exact Reader.bodyIndent_append hf hs hw
  rw [List.append_assoc]
  refine Takes.bind (takes_skipSpaces hg ?_) fun _ _ => ?_
  · rw [List.append_assoc]
    exact hc.avoids_isSpace hend
  · refine Takes.bind (Script.takes_comment hc hend) fun _ _ => ?_
    refine Takes.look_bind (takes_look (P := (· = true)) hend) fun found hfound => ?_
    rw [hfound]
    exact Takes.bind_done hbreak fun _ _ => hindent

/-- A body is the block behind the end of its header. -/
theorem reads_body {w' : Nat} {block : Block} {b : Text} (hlevel : isLevel w') (hw : w < w')
    (ht : IsIdleLine (fun _ => True) t) (hb : IsBreak b)
    (hs : Written isLevel room (.rows w' block) s) (hcode : ∃ l ∈ block, l.isComment = false)
    (h : Reads isLevel room (.rows w' block) s) :
    Reads isLevel (room + 2) (.body w block) (t ++ (b ++ s)) := by
  intro rest hrest
  -- the indentation of the block is found at its first line of code, which then is read again
  obtain ⟨f, r, hsplit, hf, hr⟩ := hs.exists_code w' block rfl hcode
  have hrest' : s ++ rest = f ++ (spaces w' ++ (r ++ rest)) := by
    rw [hsplit, List.append_assoc, List.append_assoc]
  rw [← List.append_assoc]
  refine takes_call (Takes.bind (takes_blockOpening ht hb hf (hr.append rest) hw hrest')
    fun level hfound => ?_)
  rw [hfound]
  exact h.takes_block hlevel (hrest.endsBlock hw)

/-- An expression, a colon and a body. -/
theorem reads_branch {e : Expr} {block : Block} {g : Text} (he : e.Written room false 0 s)
    (hg : IsGap false g) (h : Reads isLevel (room + 1) (.body w block) t) :
    Reads isLevel (room + 1) (.branch w (.mk e block)) (s ++ (g ++ (":" ++ t))) := by
  intro g' rest hg' hrest
  refine Takes.bind (takes_skipSpaces hg' ?_) fun _ _ => ?_
  · rw [List.append_assoc]
    exact he.avoids_gap (k := false)
  · -- the colon ends the expression, with or without a gap in front of it
    refine Takes.bind (he.takes rfl ?_) fun v hv => ?_
    · rw [List.append_assoc]
      exact endsExpr_separator hg (by decide)
    · refine Takes.bind (takes_skipSpaces hg rfl) fun _ _ => ?_
      refine Takes.bind (takes_expect ":") fun _ _ => ?_
      refine Takes.bind_done (h rest hrest) fun body hbody => takes_pure ?_
      rw [Condition.bare_mk, Condition.bare_mk, hv, hbody]

/-! ### The branches of an `if` -/

/-- The line that is looked for is found behind idle lines, and they are taken. -/
theorem takes_seek {ok : Nat → Prop} {f : Text} {accept : Text → Bool} (hf : IsIdle ok f)
    (ht : t.StartsCode) (haccept : accept t = true) :
    Takes room 0 (read (Reader.seekLine w accept) : Grammar Rule Bool) (f ++ spaces w) t
      (· = true) := by
  refine takes_read ?_ rfl
  rw [List.append_assoc, Reader.seekLine_append hf ht haccept, List.length_append,
    List.length_replicate]

/-- Where the line of code that is next does not fit, nothing is taken. -/
theorem takes_seek_nothing {ok : Nat → Prop} {fits : Nat → Text → Prop} {accept : Text → Bool}
    (h : Ahead ok fits rest) (hend : accept [] = false) (hfits : ∀ r, fits w r → accept r = false) :
    Takes room 0 (read (Reader.seekLine w accept) : Grammar Rule Bool) [] rest (· = false) :=
  takes_read (Reader.seekLine_of_ahead h hend hfits) rfl

/-- The text from `elif` or `else` on, of which the word is found. -/
theorem startsWord_branch {word g r : Text} (hword : (g ++ s).Avoids CodeUnit.isIdentifierChar)
    (hne : g ++ s ≠ []) : Text.startsWord word (word ++ (g ++ s) ++ r) = true := by
  rw [List.append_assoc]
  exact Text.startsWord_append_self (hword.append hne)

/-- Where no `elif` is ahead, the branches end. -/
theorem reads_noElif : Reads isLevel room (.elifs w []) [] := by
  intro rest found hrest
  refine loops_done fun x hx => ?_
  have hnone : Takes room 0 (Statement.elifBranch w) [] rest (· = none) := by
    refine Takes.look_bind (takes_seek_nothing hrest.ahead rfl fun r hr => hr.2 rfl)
      fun found hfound => ?_
    rw [hfound]
    exact takes_pure rfl
  refine Takes.bind_done hnone ?_
  rintro _ rfl
  exact takes_pure ⟨x, rfl, hx⟩

/-- Behind a body stand the other branches, or what is behind all of them. -/
theorem Written.endsBody_elifs {cs : List Condition} (h : Written isLevel room (.elifs w cs) s)
    (hrest : EndsBody isLevel w rest) : EndsBody isLevel w (s ++ rest) := by
  cases h with
  | noElif => exact hrest
  | @elif room w c cs b f g s t hb hf hg hword hbranch =>
    simp only [List.append_assoc]
    exact .cons hb (.code (hf.mono fun _ => .inl) rfl (Nat.le_refl w))

/-- Behind the branches stands `else`, or what is behind the statement. -/
theorem Written.endsElifs_otherwise {block : Option Block}
    (h : Written isLevel room (.otherwise w block) s) (hrest : EndsRow isLevel w rest) :
    EndsElifs isLevel w (s ++ rest) := by
  cases h with
  | noElse => exact hrest.endsElifs
  | «else» hb hf hg hbody =>
    simp only [List.append_assoc]
    exact .cons hb (.code (hf.mono fun _ => .inl) rfl ⟨Nat.le_refl w, fun _ => rfl⟩)

/-- A branch is taken by one turn, and the others by the next ones. -/
theorem reads_elif {c : Condition} {cs : List Condition} {b f g : Text} (hb : IsBreak b)
    (hf : IsIdle (fun v => ¬isLevel v) f) (hg : IsGap false g)
    (hword : (g ++ s).Avoids CodeUnit.isIdentifierChar)
    (hbranch : Written isLevel room (.branch w c) s)
    (hcs : Written isLevel (room + 2) (.elifs w cs) t) (h : Reads isLevel room (.branch w c) s)
    (hs : Reads isLevel (room + 2) (.elifs w cs) t) :
    Reads isLevel (room + 2) (.elifs w (c :: cs))
      (b ++ f ++ (spaces w ++ ("elif" ++ (g ++ s))) ++ t) := by
  intro rest found hrest
  have hne : g ++ s ≠ [] := List.append_ne_nil_of_right_ne_nil _ hbranch.branch_ne_nil
  have hbody : EndsBody isLevel w (t ++ rest) := hcs.endsBody_elifs hrest.endsBody
  -- looking for `elif` takes the line break, the idle lines and the indentation before it
  have hturn : ∀ x, x.map Condition.bare = found → Takes (room + 2) 0 (Statement.elifTurn w x)
      (b ++ f ++ (spaces w ++ ("elif" ++ (g ++ s)))) (t ++ rest)
      fun next => ∃ y, next = .again y ∧ y.map Condition.bare = c.bare :: found := by
    intro x hx
    have hfound : Takes (room + 2) 0 (Statement.elifBranch w)
        (b ++ f ++ spaces w ++ ("elif" ++ (g ++ s))) (t ++ rest)
        fun found => ∃ v : Condition, found = some v ∧ v.bare = c.bare := by
      refine Takes.bind (takes_seek (hb.isIdle hf) rfl (startsWord_branch hword hne))
        fun there hthere => ?_
      rw [hthere]
      refine Takes.bind_done (takes_call (Takes.bind (takes_expectKeyword (hword.append hne))
        fun _ _ => takes_call (h g _ hg hbody))) fun v hv => ?_
      exact takes_pure ⟨v, rfl, hv⟩
    rw [List.append_assoc (b ++ f)] at hfound
    refine Takes.bind_done hfound ?_
    rintro _ ⟨v, rfl, hv⟩
    exact takes_pure ⟨_, rfl, by rw [List.map_cons, hv, hx]⟩
  have hnonempty : b ++ f ++ (spaces w ++ (("elif" : Text) ++ (g ++ s))) ≠ [] := by
    rcases hb with rfl | rfl <;> simp
  -- the branches are found in reverse, the last one first
  have hloops := hs rest (c.bare :: found) hrest
  have hreverse : (cs.map Condition.bare).reverse ++ (c.bare :: found)
      = ((c :: cs).map Condition.bare).reverse ++ found := by simp
  rw [hreverse] at hloops
  exact Loops.again hturn hnonempty hloops

/-- Where no `else` is ahead, the statement ends. -/
theorem reads_noElse : Reads isLevel room (.otherwise w none) [] := by
  intro rest hrest
  refine Takes.look_bind (takes_seek_nothing hrest.ahead rfl fun r hr => ?_) fun found hfound => ?_
  · rcases hr with hr | ⟨-, hr⟩
    · exact absurd hr (Nat.lt_irrefl w)
    · exact hr.not_branch _ (by decide)
  · rw [hfound]
    exact takes_pure rfl

/-- The last branch is a body behind a colon. -/
theorem reads_else {block : Block} {b f g : Text} (hb : IsBreak b)
    (hf : IsIdle (fun v => ¬isLevel v) f) (hg : IsGap false g)
    (h : Reads isLevel room (.body w block) s) :
    Reads isLevel (room + 1) (.otherwise w (some block))
      (b ++ f ++ (spaces w ++ ("else" ++ (g ++ (":" ++ s))))) := by
  intro rest hrest
  have hword : (g ++ ((":" : Text) ++ s)).Avoids CodeUnit.isIdentifierChar := hg.endsWord rfl
  have hne : g ++ ((":" : Text) ++ s) ≠ [] :=
    List.append_ne_nil_of_right_ne_nil _ (List.cons_ne_nil 0x3A s)
  -- the branch is looked for again at the code line, from which it is then read
  have hbody : Takes room 0 (Statement.elseBody w) ("else" ++ (g ++ (":" ++ s))) rest
      fun v => Block.bare v = Block.bare block := by
    refine Takes.bind (takes_expectKeyword (hword.append hne)) fun _ _ => ?_
    refine Takes.bind (takes_skipSpaces hg rfl) fun _ _ => ?_
    exact Takes.bind (takes_expect ":") fun _ _ => h rest hrest.endsElifs.endsBody
  rw [← List.append_assoc]
  refine Takes.bind (takes_seek (hb.isIdle hf) rfl (startsWord_branch hword hne))
    fun there hthere => ?_
  rw [hthere]
  refine Takes.bind_done (takes_call hbody) fun v hv => takes_pure ?_
  rw [Option.map_some, Option.map_some, hv]

/-! ### The cases of a `match` -/

/-- A case is found behind idle lines, and taken by one turn. -/
theorem Reads.takes_caseTurn {c : Condition} {f : Text} {x found : List Condition}
    (h : Reads isLevel room (.branch w c) s) (hw : Written isLevel room (.branch w c) s)
    (hf : IsIdle (fun _ => True) f) (hrest : EndsBody isLevel w rest)
    (hx : x.map Condition.bare = found) :
    Takes (room + 2) 0 (Statement.caseTurn w x) (f ++ (spaces w ++ s)) rest
      fun next => ∃ y, next = .again y ∧ y.map Condition.bare = c.bare :: found := by
  have hcode : (s ++ rest).StartsCode := hw.startsCode_branch.append rest
  -- any code line at the level of the cases is taken for one
  have hnonempty : (!(s ++ rest).isEmpty) = true := by
    obtain ⟨u, r, hur, -⟩ := hcode.exists_cons
    rw [hur]
    rfl
  have hcase : Takes (room + 2) 0 (call (Rule.matchCase w)) s rest fun v => v.bare = c.bare :=
    takes_call (takes_call (h [] rest (Text.isGap_nil false) hrest))
  rw [← List.append_assoc]
  refine Takes.bind (takes_seek hf hcode hnonempty) fun there hthere => ?_
  rw [hthere]
  refine Takes.bind_done hcase fun v hv => takes_pure ⟨_, rfl, ?_⟩
  rw [List.map_cons, hv, hx]

/-- The last case, behind which the block of cases ends. -/
theorem reads_lastCase {c : Condition} {f : Text} (hf : IsIdle (fun v => ¬isLevel v) f)
    (hw : Written isLevel room (.branch w c) s) (h : Reads isLevel room (.branch w c) s) :
    Reads isLevel (room + 2) (.cases w [c]) (f ++ (spaces w ++ s)) := by
  intro i rest found hi hrest
  -- the idle lines of the loop and those of the case are passed over at once
  have hidle : IsIdle (fun _ => True) (i ++ f) := hi.append (hf.mono fun _ _ => trivial)
  have hne : i ++ f ++ (spaces w ++ s) ≠ [] := by
    have hs := hw.branch_ne_nil
    simp [hs]
  have hdone : Loops (room + 2) 0 (Statement.caseTurn w) [] rest
      (fun x => x.map Condition.bare = c.bare :: found)
      fun x => x.map Condition.bare = c.bare :: found := by
    refine loops_done fun x hx => ?_
    refine Takes.look_bind (takes_seek_nothing hrest.ahead rfl fun r hr => ?_)
      fun there hthere => ?_
    · exact absurd hr (Nat.lt_irrefl w)
    · rw [hthere]
      exact takes_pure ⟨x, rfl, hx⟩
  have hends : EndsBody isLevel w ([] ++ rest) := hrest.endsRow.endsElifs.endsBody
  have hloops := Loops.again (fun x hx => h.takes_caseTurn hw hidle hends hx) hne hdone
  rwa [List.append_nil, List.append_assoc] at hloops

/-- A case with more cases behind it. -/
theorem reads_cases {c : Condition} {cs : List Condition} {f b : Text}
    (hf : IsIdle (fun v => ¬isLevel v) f) (hw : Written isLevel room (.branch w c) s)
    (hb : IsBreak b) (hcs : Written isLevel (room + 2) (.cases w cs) t)
    (h : Reads isLevel room (.branch w c) s) (hs : Reads isLevel (room + 2) (.cases w cs) t) :
    Reads isLevel (room + 2) (.cases w (c :: cs)) (f ++ (spaces w ++ s) ++ (b ++ t)) := by
  intro i rest found hi hrest
  have hidle : IsIdle (fun _ => True) (i ++ f) := hi.append (hf.mono fun _ _ => trivial)
  have hne : i ++ f ++ (spaces w ++ s) ≠ [] := by
    have hs := hw.branch_ne_nil
    simp [hs]
  have hbreak : IsIdle (fun _ => True) b := by
    have hidle := hb.isIdle (.nil : IsIdle (fun _ => True) [])
    rwa [List.append_nil] at hidle
  -- the next case is what ends the block of this one
  obtain ⟨f', t', rfl, hf', ht'⟩ := hcs.exists_case
  have hends : EndsBody isLevel w (b ++ (f' ++ (spaces w ++ t')) ++ rest) := by
    simp only [List.append_assoc]
    exact .cons hb (.code (hf'.mono fun _ => .inl) (ht'.append rest) (Nat.le_refl w))
  have hreverse : (cs.map Condition.bare).reverse ++ (c.bare :: found)
      = ((c :: cs).map Condition.bare).reverse ++ found := by simp
  have hloops := hs b rest (c.bare :: found) hbreak hrest
  rw [hreverse] at hloops
  have hall := Loops.again (fun x hx => h.takes_caseTurn hw hidle hends hx) hne hloops
  simpa only [List.append_assoc] using hall

end Piece

end GDScript
