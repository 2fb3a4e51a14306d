import GDScript.Proofs.Room
import GDScript.Proofs.Script.Header
import GDScript.Proofs.Script.Spellable

/-!
# Scripts are read back

Whatever spells a piece of a script is read as that piece (`Piece.reads_of_written`), by induction on
how it is written. So every text that spells a block as a script is read as that block, up to the
places of its lines, if there is room for the rules that are active at a time
(`Script.parse_round_trip`).
-/

namespace GDScript

open Grammar
open Text (IsGap IsName IsChain IsBreak IsIdle IsIdleLine Ahead Follows EndsRow EndsBlock)

/-- Every piece is read from the text that spells it. -/
theorem Piece.reads_of_written {isLevel : Nat → Prop} {room : Nat} {p : Piece} {s : Text}
    (h : Written isLevel room p s) : Reads isLevel room p s := by
  -- one reading lemma for each way to write a piece
  induction h with
  | item h ht => exact fun rest hrest => Script.itemsRead_item h ht hrest.atLineEnd
  | itemSemicolon h hg ht =>
    exact fun rest hrest => Script.itemsRead_semicolon h hg ht hrest.atLineEnd
  | items h hg hg' hls ih =>
    exact fun rest hrest => (ih rest hrest).cons h hg hg' (hls.startsItem hrest.atLineEnd).startsCode
  | declItem _ ih => exact reads_declItem ih
  | stmtItem h ih => exact reads_stmtItem h ih
  | comment hg hw htext hpad => exact reads_comment hg hw htext hpad
  | code h ih => exact reads_code h ih
  | lastRow hf h ih => exact reads_lastRow hf h ih
  | rows hf h hb hmore ih ihs => exact reads_rows hf hb h hmore ih ihs
  | body hlevel hw ht hb h hcode ih => exact reads_body hlevel hw ht hb h hcode ih
  | branch he hg _ ih => exact reads_branch he hg ih
  | noElif => exact reads_noElif
  | elif hb hf hg hword h hcs ih ihs => exact reads_elif hb hf hg hword h hcs ih ihs
  | noElse => exact reads_noElse
  | «else» hb hf hg _ ih => exact reads_else hb hf hg ih
  | lastCase hf h ih => exact reads_lastCase hf h ih
  | cases hf h hb hcs ih ihs => exact reads_cases hf h hb hcs ih ihs
  | «if» hg hword h hcs hotherwise ih ihs ihe =>
    exact reads_if hg hword h hcs hotherwise ih ihs ihe
  | «while» hg hword h ih => exact reads_conditional (i := 1) rfl rfl rfl (fun _ => rfl) hg hword h ih
  | «for» hg hword h ih => exact reads_conditional (i := 2) rfl rfl rfl (fun _ => rfl) hg hword h ih
  | «match» hg hword hsubject hg' ht hb hw hcs ih =>
    exact reads_match hg hword hsubject hg' ht hb hw hcs ih
  | function hmodifier hg hne hname hg' harguments hg'' _ ih =>
    exact reads_function hmodifier hg hne hname hg' harguments hg'' ih
  | functionHint hmodifier hg hne hname hg' harguments hg'' hh hhint hh' _ ih =>
    exact reads_functionHint hmodifier hg hne hname hg' harguments hg'' hh hhint hh' ih
  | «class» hg hne hname hg' _ ih => exact reads_class hg hne hname hg' ih
  | classExtends hg hne hname hg' hne' hh hne'' hbase hh' _ ih =>
    exact reads_classExtends hg hne hname hg' hne' hh hne'' hbase hh' ih

namespace Script

variable {isLevel : Nat → Prop} {room : Nat} {block : Block} {s rest : Text}

/-- Behind the last line of a script there are only idle lines, and they are taken. -/
theorem takes_finished (hrest : Ahead (fun v => ¬isLevel v) (fun _ _ => False) rest) :
    Takes room 0 finished rest [] (· = true) := by
  have hall : rest.codeDistance = rest.length := by
    cases hrest with
    | ended hf hl => exact Text.codeDistance_ended hf hl
    | code _ _ hfits => exact hfits.elim
  have hskip : Takes room 0 (read Reader.skipEmptyLines : Grammar Rule Unit) rest [] fun _ => True := by
    refine takes_read (v := ()) ?_ trivial
    rw [List.append_nil, Reader.skipEmptyLines, Reader.skip, hall]
  refine (takes_rewindIf (Takes.bind_done hskip fun _ _ => ?_)).mono fun _ h => h
  refine (takes_look (f := List.isEmpty) (P := fun v => v = true ∧ (!v) = false) ⟨rfl, rfl⟩)

/-- A block and idle lines behind it are a file. -/
theorem takes_file (hblock : Takes room 0 (call (Rule.block 0 false)) s rest
      fun v => Block.bare v = Block.bare block)
    (hrest : Ahead (fun v => ¬isLevel v) (fun _ _ => False) rest) :
    Takes (room + 1) 0 (call Rule.file) (s ++ rest) [] fun v => Block.bare v = Block.bare block := by
  refine takes_call (Takes.bind (by rwa [List.append_nil]) fun lines hlines => ?_)
  refine Takes.bind_done (takes_finished hrest) ?_
  rintro _ rfl
  exact takes_pure hlines

/-- A script is read from every text that spells it. -/
theorem takes_written (h : Written isLevel room block s) :
    Takes room 0 (call Rule.file) s [] fun v => Block.bare v = Block.bare block := by
  cases h with
  | @nil room f l hlevel hf hl =>
    -- a text of empty lines gives a block without lines
    have hnone : Takes (room + 1) 0 (call (Rule.block 0 false)) [] (f ++ l)
        fun v => Block.bare v = Block.bare [] := by
      refine takes_call ?_
      show Takes room 0 (Script.block 0 false) [] (f ++ l) _
      rw [block_eq]
      have hloops : Loops room 0 (blockTurn 0 false) [] (f ++ l) (· = ([] : Block)) _ :=
        Piece.loops_blockTurn_done hlevel (.ended (hf.mono fun _ => .inl) (hl.mono fun _ => .inl))
      refine Takes.bind_done (hloops.takes rfl) ?_
      rintro _ rfl
      exact takes_pure rfl
    exact takes_file (s := []) hnone (.ended hf hl)
  | @rows room block s rest hlevel hrows hrest =>
    have hends : EndsBlock isLevel 0 rest :=
      Follows.mono hrest (fun _ hv => .inl hv) fun _ _ hv => hv.elim
    exact takes_file ((Piece.reads_of_written hrows).takes_block hlevel hends) hrest.ahead

/-- With other room than a text needs, a run over it ends as with that room, or for lack of room. -/
theorem run_of_written (h : Written isLevel room block s) (depth : Option Int) :
    (∃ found c journal, run s depth (call .file) = .finished found c journal ∧
      Block.bare found = Block.bare block) ∨
    (depthLimit depth).toNat < room ∧ (run s depth (call .file)).IsTooDeep := by
  obtain ⟨found, journal, hrun, hfound⟩ := takes_written h ⟨[], 0, depthLimit depth⟩
    (Cursor.ofText s) [] rfl (List.append_nil s).symm
  -- the room decides nothing but whether a run ends for the lack of it
  rcases Nat.lt_or_ge (depthLimit depth).toNat room with hless | hmore
  · rcases run_eq_or_isTooDeep (Nat.le_of_lt hless) (call Rule.file) _ _ _ with heq | hdeep
    · exact .inl ⟨found, _, journal, heq.trans hrun, hfound⟩
    · exact .inr ⟨hless, hdeep⟩
  · rcases run_eq_or_isTooDeep hmore (call Rule.file) _ _ _ with heq | ⟨e, j, hfailed, -⟩
    · exact .inl ⟨found, _, journal, heq.symm.trans hrun, hfound⟩
    · exact absurd (hfailed.symm.trans hrun) (by simp)

/--
Every script is written by some text. Every text that spells it is read as that script, up to the
places of its lines, under every depth limit that leaves room for the rules that the text needs; with
less room the reading may fail, but only because the rules are nested too deeply.
-/
theorem parse_round_trip {block : Block} (hblock : block.IsScript) :
    (∃ s room, Written (fun _ => True) room block s) ∧
    ∀ (isLevel : Nat → Prop) (room : Nat) (s : Text), Written isLevel room block s →
      ∀ depth, (∃ found, parse s depth = .ok found ∧ Block.bare found = Block.bare block) ∨
        (depthLimit depth).toNat < room ∧
          ∃ e, parse s depth = .error (.parse e) ∧ e.code = .nestingTooDeep := by
  refine ⟨hblock.exists_written, fun isLevel room s h depth => ?_⟩
  rcases run_of_written h depth with ⟨found, c, journal, hrun, hfound⟩ | ⟨hless, e, j, hrun, hcode, -⟩
  · exact .inl ⟨found, by rw [parse, hrun], hfound⟩
  · exact .inr ⟨hless, e, by rw [parse, hrun], hcode⟩

/-- A branch with a comment that stands at the indentation of no block. -/
theorem parse_round_trip_if :
    ∃ found, parse "if a:\r\n # b\n  pass" none = .ok found ∧ Block.bare found =
      [.stmt (.ifStmt (.mk (.ident "a") [.stmt .passStmt .nowhere]) [] none) .nowhere] := by
  have hname : Text.IsValueName words "a" := ⟨by decide, by decide +kernel, by decide⟩
  -- the body of the conditional is the only block within
  have hinner : ∀ inner : Block, inner.Within
      [.stmt (.ifStmt (.mk (.ident "a") [.stmt .passStmt .nowhere]) [] none) .nowhere] →
        inner = [.stmt .passStmt .nowhere] := by
    rintro inner (⟨hl, hbody⟩ | ⟨hl, hmiddle, hwithin⟩)
    · rw [List.mem_singleton.mp hl] at hbody
      exact List.mem_singleton.mp hbody
    · rw [List.mem_singleton.mp hl] at hmiddle
      rw [List.mem_singleton.mp hmiddle] at hwithin
      rcases hwithin with ⟨hl, hbody⟩ | ⟨hl, hbody, -⟩ <;>
        exact absurd (List.mem_singleton.mp hl ▸ hbody) List.not_mem_nil
  have hblock : Block.IsScript
      [.stmt (.ifStmt (.mk (.ident "a") [.stmt .passStmt .nowhere]) [] none) .nowhere] := by
    refine ⟨?_, fun inner h => ⟨.stmt .passStmt .nowhere, ?_, rfl⟩, ?_⟩
    · refine List.forall_mem_singleton.mpr (.stmt (.ifStmt (.mk (.ident (by decide) hname) ?_) ?_ ?_))
      · exact List.forall_mem_singleton.mpr (.stmt .passStmt)
      · exact fun c hc => absurd hc List.not_mem_nil
      · exact fun body hbody => absurd hbody (by simp)
    · rw [hinner inner h]
      exact List.mem_singleton_self _
    · rintro inner (rfl | h) target op value span hmem
      · exact absurd (List.mem_singleton.mp hmem) (by simp)
      · rw [hinner inner h] at hmem
        exact absurd (List.mem_singleton.mp hmem) (by simp)
  have hgap : IsGap false [CodeUnit.space] := fun u hu => by rw [List.mem_singleton.mp hu]; rfl
  have hcomment : IsIdle (fun v => ¬(v = 0 ∨ v = 2)) " # b\n" :=
    .cons (l := " # b") (.comment hgap (by decide) (by decide)) (.inl rfl) .nil
  have hrows : Piece.Written (fun v => v = 0 ∨ v = 2) 4 (.rows 2 [.stmt .passStmt .nowhere])
      ((" # b\n" : Text) ++ (Text.spaces 2 ++ (("pass" : Text) ++ []))) :=
    .lastRow hcomment (.code (.item (.stmt .pass) (.blank (Text.isGap_nil false))))
  have hbranch : Piece.Written (fun v => v = 0 ∨ v = 2) 6
      (.branch 0 (.mk (.ident "a") [.stmt .passStmt .nowhere])) _ :=
    .branch (g := []) ((Phrase.Written.name hname).looser (by omega) (by omega)) (Text.isGap_nil false)
      (.body (.inr rfl) (by omega) (.blank (Text.isGap_nil false)) (.inr rfl) hrows
        ⟨_, List.mem_singleton_self _, rfl⟩)
  have hwritten : Written (fun v => v = 0 ∨ v = 2) 12
      [.stmt (.ifStmt (.mk (.ident "a") [.stmt .passStmt .nowhere]) [] none) .nowhere] _ :=
    .rows (.inl rfl) (.lastRow .nil (.code (.stmtItem (.if hgap rfl hbranch .noElif .noElse)))) .nil
  rcases (parse_round_trip hblock).2 _ 12 _ hwritten none with h | ⟨h, -⟩
  · exact h
  · exact absurd h (by decide)

end Script

end GDScript
