import GDScript.Proofs.Pairing.Script
import GDScript.Proofs.Report.Stop

/-!
# Whole scripts in two texts

A script is read exactly when the block at its top level is, and no line of code is left behind it
(`Script.parse_eq_ok_iff`). So where the blocks at the top of two scripts go alike, and both leave
no line of code when one of them does, both scripts are read (`Script.exists_of_pairs`).
-/

namespace GDScript

open Grammar

namespace Script

variable {room : Nat} {scope : Scope} {c : Cursor} {journal : Journal} {lines : Block}

/-- What follows the lines of a file: the end, or a complaint. -/
def fileEnd (lines : Block) : Grammar Rule Block := do
  if ← finished then return lines
  else
    blame do
      read Reader.skipEmptyLines
      read trailing

theorem file_eq : file = call (Rule.block 0 false) >>= fileEnd := rfl

/-- A file ends behind its lines when no line of code is left there. -/
theorem leads_fileEnd (lines : Block) (c : Cursor) (journal : Journal) :
    Leads room (fileEnd lines) c journal
      (fun found _ _ => found = lines ∧ c.ahead.nextCode = []) fun _ _ => c.ahead.nextCode ≠ [] := by
  refine leads_finished_bind (fun c' hnext _ => leads_pure ⟨rfl, hnext⟩) fun hne => ?_
  refine Leads.blame (fun _ _ _ => hne) fun _ => leads_skip_bind (leads_read (fun v n hread => ?_)
    fun _ _ _ => hne)
  exact absurd hread (by simp [trailing])

/-- A file is read when its lines are, and no line of code is left behind them. -/
theorem run_file_eq_finished_iff :
    (∃ c' journal', Grammar.run room file scope c journal = .finished lines c' journal') ↔
      ∃ d journal', Grammar.run room (call (Rule.block 0 false)) scope c journal
        = .finished lines d journal' ∧ d.ahead.nextCode = [] := by
  rw [file_eq, run_bind, Parser.bind]
  cases hrun : Grammar.run room (call (Rule.block 0 false)) scope c journal with
  | failed failure journal' => simp
  | finished found d journal' =>
    have hrest : (Grammar.run room (fileEnd found) scope d journal').Meets _ _ :=
      leads_fileEnd found d journal' scope
    dsimp only
    -- the end of the file is found exactly if no code is left
    cases hend : Grammar.run room (fileEnd found) scope d journal' with
    | failed failure journal'' =>
      rw [hend] at hrest
      have hne : d.ahead.nextCode ≠ [] := hrest
      constructor
      · rintro ⟨_, _, h⟩
        cases h
      · rintro ⟨_, _, h, hnil⟩
        cases h
        exact absurd hnil hne
    | finished found' d' journal'' =>
      rw [hend] at hrest
      obtain ⟨rfl, hnil⟩ := hrest
      constructor
      · rintro ⟨_, _, h⟩
        cases h
        exact ⟨d, journal', rfl, hnil⟩
      · rintro ⟨_, _, h, -⟩
        cases h
        exact ⟨d', journal'', rfl⟩

/-- The scope in which the lines of a script are read. -/
def fileScope (depth : Option Int) : Scope := ⟨[⟨"file", .first⟩], 0, depthLimit depth⟩

/-- A script is read when there is room for a file, its lines are read, and no code is left. -/
theorem parse_eq_ok_iff {source : Text} {depth : Option Int} :
    parse source depth = .ok lines ↔ ∃ room, (depthLimit depth).toNat = room + 1 ∧
      ∃ d journal', Grammar.run room (call (Rule.block 0 false)) (fileScope depth)
        (Cursor.ofText source) [] = .finished lines d journal' ∧ d.ahead.nextCode = [] := by
  rw [parse, run, Grammar.start]
  cases hroom : (depthLimit depth).toNat with
  | zero =>
    -- the limit does not even let the file be entered
    have hdeep : Grammar.run 0 (call Rule.file) ⟨[], 0, depthLimit depth⟩ (Cursor.ofText source) []
        = .failed _ _ := rfl
    rw [hdeep]
    simp
  | succ room =>
    have hfile : (∃ c' journal', Grammar.run room file (fileScope depth) (Cursor.ofText source) []
        = .finished lines c' journal') ↔ _ := run_file_eq_finished_iff
    have hrun : Grammar.run (room + 1) (call Rule.file) ⟨[], 0, depthLimit depth⟩
        (Cursor.ofText source) []
          = Grammar.run room file (fileScope depth) (Cursor.ofText source) [] := by
      rw [run_call]
      rfl
    rw [hrun]
    constructor
    · intro h
      refine ⟨room, rfl, hfile.mp ?_⟩
      split at h
      · next found d journal' hfound =>
        cases h
        exact ⟨d, journal', hfound⟩
      · cases h
    · rintro ⟨_, hsucc, h⟩
      obtain rfl := Nat.succ.inj hsucc
      obtain ⟨d, journal', hfound⟩ := hfile.mpr h
      rw [hfound]

/--
Where the lines of two scripts go alike, and no code is left in both of them when none is left in the
first one, the second one is read when the first one is.
-/
theorem exists_of_pairs {source source' : Text} {depth : Option Int} {r : Reports}
    {Q : Block → Block → Prop} (hscope : r.scope (fileScope depth) (fileScope depth))
    (hjournal : r.journal [] [])
    (h : ∀ room, (depthLimit depth).toNat = room + 1 →
      Pairs r room 0 (call (Rule.block 0 false)) (call (Rule.block 0 false))
        (Cursor.ofText source) (Cursor.ofText source') fun found found' d d' =>
          d.ahead.nextCode = [] → Q found found' ∧ d'.ahead.nextCode = [])
    (hparse : parse source depth = .ok lines) :
    ∃ lines', parse source' depth = .ok lines' ∧ Q lines lines' := by
  obtain ⟨room, hroom, d, journal, hrun, hnil⟩ := parse_eq_ok_iff.mp hparse
  have hpair := h room hroom _ _ _ _ hscope rfl hjournal
  rw [hrun] at hpair
  generalize hrun' : Grammar.run room (call (Rule.block 0 false)) (fileScope depth)
    (Cursor.ofText source') [] = o at hpair
  -- the first run has finished, so the paired one has
  cases hpair with
  | @finished _ lines' _ d' _ journal' hQ =>
    obtain ⟨hQ, hnil'⟩ := hQ hnil
    exact ⟨lines', parse_eq_ok_iff.mpr ⟨room, hroom, d', journal', hrun', hnil'⟩, hQ⟩

end Script

namespace Pairing

variable {p : Pairing} {room : Nat} {c c' : Cursor}

/-- Both texts end where one of them does. -/
structure EndTogether (p : Pairing) : Prop where
  ended {c c' : Cursor} (h : p.between c c') (hnil : c.ahead = []) : c'.ahead = []
  not_gone (c' : Cursor) : ¬p.gone c'
  fresh : p.fresh

/-- The lines at the top of two scripts that end together. -/
theorem pairs_topLines (htogether : p.EndTogether) (hc : p.between c c') :
    Pairs p.reports room 0 (call (Rule.block 0 false)) (call (Rule.block 0 false)) c c'
      p.LinesSoFar := by
  refine Pairs.call rfl (p.place_between hc) fun room' _ => ?_
  have hturn := Script.turnsAdvance_blockTurn room' 0 false
  have hblock : Pairs p.reports room' 0 (Script.block 0 false) (Script.block (p.width 0) false) c c'
      p.LinesSoFar := by
    rw [p.width_zero, Script.block_eq]
    refine Pairs.bind (Q := p.LinesSoFar) (Pairs.loop (I := p.LinesSoFar) hturn hturn
      ⟨rfl, hc, fun h => absurd rfl h⟩ fun lines lines' d d' h => ?_) ?_
    · -- where one text has ended the other has too
      have hends : p.StopsAlike 0 d d' := fun hnil hne =>
        absurd (htogether.ended (p.between_passOver 0 h.2.1) hnil) hne
      have hnext := pairs_blockTurn (p.blockCarry room') (.inr htogether.fresh) false h hends
      rw [p.width_zero] at hnext
      refine hnext.mono ?_
      rintro (z | z) (z' | z') e e' hnext
      · obtain ⟨hlines, he⟩ := hnext.resolve_right fun h => htogether.not_gone e' h.gone
        exact .of_ended hlines he
      · exact hnext
      · exact hnext
      · exact hnext
    · rintro lines lines' d d' ⟨hlines, hd, hended⟩
      exact pairs_pure ⟨TokenPairing.SameBlock.reverse hlines, hd,
        fun hne => hended (by simpa using hne)⟩
  rw [p.width_zero] at hblock
  exact hblock

/-- No line of code is next in both texts, if none is next in the first one and they end together. -/
theorem nextCode_eq_nil (htogether : p.EndTogether) (hc : p.between c c')
    (h : c.ahead.nextCode = []) : c'.ahead.nextCode = [] := by
  have hcode := htogether.ended (p.between_emptyLines hc)
  rw [Cursor.ahead_advanceBy, Cursor.ahead_advanceBy] at hcode
  exact hcode h

end Pairing

end GDScript
