import GDScript.Proofs.Report.Tracking
import GDScript.Proofs.Turn

/-!
# Where a block stops

A block ends where no line of code is left, or before a line that it cannot take: one at another
indentation, which is noted, or one that does not parse, which is given up on. In both cases what
got furthest lies behind the place where the block stops (`Script.leads_block_reaches`).

The loop of a block allows one turn more than there are units ahead. Its first line may start where
the block does, but every further one lies behind a line break, so when the turns run out nothing is
left to read.
-/

namespace GDScript.Script

open Grammar

variable {room : Nat} {c : Cursor} {journal : Journal}

/-- A line that a block does not take leaves a failure behind the place where the block stops. -/
theorem leads_blockLine_reaches (level : Nat) (required : Bool) (c : Cursor) (journal : Journal) :
    Leads room (blockLine level required) c journal
      (fun found _ journal' => found = none → c.ahead.nextCode ≠ [] →
        journal'.Reaches c.location.offset) fun _ _ => True := by
  have hpassed := reaches_passOver level c
  -- one goal for each kind of line: the end, a comment, a misplaced line, code that must be read,
  -- code that may
  refine leads_blockLine (fun hend _ hne => ?_) (fun _ => ?_) (fun _ _ scope _ _ => ?_)
    (fun _ _ _ => ?_) fun _ _ _ => ?_
  · rw [← nextCode_passOver level c, hend] at hne
    exact absurd rfl hne
  · exact leads_of_forall fun _ _ _ h => absurd h (by simp)
  · exact (Journal.reaches_noted _ journal).of_le
      (hpassed.trans (Cursor.reaches_advanceBy _ _)).offset_le
  · exact leads_of_forall fun _ _ _ h => absurd h (by simp)
  · refine Leads.attempt ((leads_tracks room _ _ journal).mono (fun _ _ _ _ h => absurd h (by simp))
      fun _ _ htracks => htracks) (fun e journal' he htracks _ _ => ?_) fun _ _ _ _ => trivial
    obtain ⟨-, hle, hreach⟩ := htracks.refused_inv he
    exact (hreach.of_le ((hpassed.trans (Cursor.reaches_advanceBy _ _)).offset_le.trans hle)).cons
      (by simp)

/-- Where a block stops before a line of code, what got furthest lies there or behind it. -/
theorem leads_block_reaches (level : Nat) (required : Bool) (c : Cursor) (journal : Journal) :
    Leads room (block level required) c journal
      (fun _ c' journal' => c'.ahead.nextCode ≠ [] → journal'.Reaches c'.location.offset)
      fun _ _ => True := by
  rw [block_eq]
  refine Leads.bind (Q := fun _ c' journal' => c'.ahead.nextCode ≠ [] →
    journal'.Reaches c'.location.offset) ?_ fun lines c' journal' h => leads_pure h
  -- behind the first line the cursor is at a line break, so a turn that takes nothing is the last
  refine Leads.turns (I := fun n _ c' _ => c'.ahead.length < n ∨
    c'.ahead.atLineEnd = true ∧ c'.ahead.length ≤ n) (.inl (Nat.lt_succ_self _)) ?_ ?_
  · rintro lines c' journal' (hlt | ⟨-, hle⟩) hne
    · exact absurd hlt (Nat.not_lt_zero _)
    · rw [List.length_eq_zero_iff.mp (Nat.le_zero.mp hle)] at hne
      exact absurd rfl hne
  · intro n lines c' journal' hn
    refine Leads.bind ((leads_blockLine_reaches level _ c' journal').and_yields
      (yields_blockLine_atLineEnd level _ c')) ?_
    rintro (_ | found) c'' journal'' ⟨hfound, hreaches⟩
    · obtain rfl : c'' = c' := hfound
      exact leads_pure fun hne => hreaches rfl hne
    · -- a first line may take nothing; a further one is behind a line break, which is taken
      obtain ⟨hend, hpassed, hne⟩ := hfound
      refine leads_pure (.inr ⟨hend, ?_⟩)
      have hpass := (reaches_passOver level c').length_le
      have hlength := hpassed.length_le
      rcases hn with hlt | ⟨hend', hle⟩
      · omega
      · have hbreak : (passOver level c').ahead.length < c'.ahead.length :=
          length_passOver_lt hend' hne
        omega

/-- A block that requires no line only fails in a way that nothing recovers from. -/
theorem leads_block_optional (level : Nat) (c : Cursor) (journal : Journal) :
    Leads room (block level false) c journal (fun _ _ _ => True)
      fun failure _ => failure.recoverable? = none := by
  rw [block_eq]
  refine Leads.bind (Q := fun _ _ _ => True) (Leads.loop (I := fun _ _ _ => True) trivial
    (fun _ _ _ _ => trivial) fun lines c' journal' _ => ?_) fun _ _ _ _ => leads_pure trivial
  refine Leads.bind (Q := fun _ _ _ => True) (leads_blockLine (fun _ => trivial)
    (fun _ => leads_commentLine fun _ _ => trivial) (fun _ _ _ => trivial)
    (fun hrequired => absurd hrequired (by simp))
    fun _ _ _ => Leads.attempt (leads_of_forall fun _ _ _ => trivial) (fun _ _ _ _ => trivial)
      fun _ _ hrec _ => hrec) ?_
  rintro (_ | found) c'' journal'' - <;> exact leads_pure trivial

/-! ### Files -/

/-- Only empty lines are left exactly where no line of code is. -/
theorem leads_finished_bind {α : Type} {k : Bool → Grammar Rule α}
    {Q : α → Cursor → Journal → Prop} {E : Failure → Journal → Prop}
    (hend : ∀ c', c.ahead.nextCode = [] → c'.ahead = [] → Leads room (k true) c' journal Q E)
    (hmore : c.ahead.nextCode ≠ [] → Leads room (k false) c journal Q E) :
    Leads room (finished >>= k) c journal Q E := by
  refine Leads.bind (Q := fun ended c' journal' => journal' = journal ∧
    if ended then c.ahead.nextCode = [] ∧ c'.ahead = [] else c.ahead.nextCode ≠ [] ∧ c' = c) ?_ ?_
  · -- the cursor is put back unless the text has ended
    refine Leads.rewindIf (leads_skip_bind (leads_read (fun _ n hread => ?_) fun _ _ hread => ?_))
    · cases hread
      rw [Cursor.advanceBy_zero, Cursor.ahead_advanceBy, Text.drop_codeDistance]
      refine ⟨rfl, ?_⟩
      cases hnext : c.ahead.nextCode with
      | nil =>
        refine ⟨rfl, ?_⟩
        simp [Text.drop_codeDistance, hnext]
      | cons u t => exact ⟨by simp, rfl⟩
    · exact absurd hread (by simp [Reader.atEnd, Reader.look])
  · rintro (_ | _) c' journal ⟨rfl, h⟩
    · obtain ⟨hne, rfl⟩ := h
      exact hmore hne
    · exact hend c' h.1 h.2

/--
What a file leads to is told from its lines: when it does not end behind them, the failure that got
furthest is raised.
-/
theorem leads_file {P Q : Block → Cursor → Journal → Prop} {E : Failure → Journal → Prop}
    (hblock : Leads room (call (Rule.block 0 false)) c journal P E)
    (hend : ∀ lines c' c'' journal', P lines c' journal' → c'.ahead.nextCode = [] →
      c''.ahead = [] → Q lines c'' journal')
    (hblamed : ∀ lines c' journal' e, P lines c' journal' → c'.ahead.nextCode ≠ [] →
      journal'.furthest = some e → E (.parse e) journal') :
    Leads room file c journal Q E := by
  -- whatever stopped the block was noted where it stands, so there is an error to blame
  have hreaches : Leads room (call (Rule.block 0 false)) c journal
      (fun _ c' journal' => c'.ahead.nextCode ≠ [] → journal'.Reaches c'.location.offset)
      fun _ _ => True :=
    leads_call (fun _ => trivial) fun _ => leads_block_reaches 0 false c journal
  refine Leads.bind (((hblock.and hreaches).mono (fun _ _ _ h => h) fun _ _ h => h.1)) ?_
  rintro lines c' journal' ⟨hlines, hreach⟩
  refine leads_finished_bind (fun c'' hnext hnil => leads_pure (hend _ _ _ _ hlines hnext hnil))
    fun hne => Leads.blame (fun e hbest _ => hblamed _ _ _ e hlines hne hbest) fun hnone => ?_
  exact absurd (hreach hne) hnone

end GDScript.Script
