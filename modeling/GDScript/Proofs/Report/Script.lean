import GDScript.Proofs.Report.Telling

/-!
# What a script is reported for

A script that is not read as a block is reported for the failure that got furthest
(`Script.isFurthest_of_parse`), which is one of the grammar that another one than text behind the
script is the reason of (`Script.isAnnounced_of_parse`); and what is reported is true of the text
(`Script.shows_of_parse`).
-/

namespace GDScript.Script

open Grammar

variable {source : Text} {depth : Option Int} {failure : Failure} {e : ParseError}

/-! ### The run of a script -/

/-- How a run over a text fails: with what is true of it. -/
theorem leads_file_tells (room : Nat) (source : Text) :
    Leads room (call Rule.file) (Cursor.ofText source) []
      (fun _ _ journal => journal.IsTrueOf source) (Failure.Tells source) := by
  have hnil : Journal.IsTrueOf source [] := fun e he => absurd he List.not_mem_nil
  refine leads_call (fun scope => ?_) fun room => ?_
  · have htrue := scope.isTrueOf_tooDeep (Cursor.ofText source).location source
    exact ⟨List.forall_mem_cons.mpr ⟨htrue, hnil⟩, _, rfl, htrue⟩
  · refine leads_file (Rule.tellTruth source room (.block 0 false) _ (Cursor.isIn_ofText source)
      (Cursor.startsLine_ofText source) [] hnil) (fun _ _ _ _ htrue _ _ => htrue) ?_
    exact fun lines c' journal' e htrue _ hbest =>
      ⟨htrue, e, rfl, htrue e (Journal.mem_failures_of_furthest hbest)⟩

/-- How a run over a text fails: with what got furthest, and within the limit or for good. -/
theorem leads_file_furthest (room : Nat) (source : Text) :
    Leads room (call Rule.file) (Cursor.ofText source) [] (fun _ _ _ => True)
      fun failure journal => (∀ e, failure = .parse e → journal.furthest = some e) ∧
        (failure.recoverable? ≠ none → journal.WithinLimit) := by
  refine leads_call (fun scope => ⟨fun e he => ?_, fun h => absurd rfl h⟩) fun room => ?_
  · rw [← Failure.parse.inj he]
    rfl
  refine leads_file (P := fun _ _ journal => journal.WithinLimit) ?_
    (fun _ _ _ _ _ _ _ => trivial) fun lines c' journal' e hlimit _ hbest =>
      ⟨fun d hd => Failure.parse.inj hd ▸ hbest, fun _ => hlimit⟩
  -- only an exceeded limit ends the block of a file with a failure
  have hoptional : Leads room (call (Rule.block 0 false)) (Cursor.ofText source) []
      (fun _ _ _ => True) fun failure _ => failure.recoverable? = none :=
    leads_call (fun _ => rfl) fun room => leads_block_optional 0 _ []
  refine ((leads_tracks room _ _ _).and hoptional).mono (fun _ _ _ h => ?_)
    fun failure journal' h => ?_
  · obtain ⟨new, rfl, hnew⟩ := h.1.2
    exact hnew.append Journal.withinLimit_nil
  · obtain ⟨htracks, hrec⟩ := h
    refine ⟨?_, fun hne => absurd hrec hne⟩
    cases htracks with
    | refused he => exact absurd ((Failure.recoverable?_parse he).symm.trans hrec) (by simp)
    | ended _ hfurthest => exact hfurthest

/-- A script that is not read as a block is one whose run fails. -/
theorem exists_run_of_parse (h : parse source depth = .error failure) :
    ∃ journal, run source depth (call .file) = .failed failure journal := by
  rw [parse] at h
  split at h
  · exact absurd h (by simp)
  · next failure' journal hrun =>
    obtain rfl := Except.error.inj h
    exact ⟨journal, hrun⟩

/-- What is said of all runs over a text is said of the one that a script is read by. -/
theorem exists_of_parse {E : Failure → Journal → Prop} {Q : Block → Cursor → Journal → Prop}
    (h : parse source depth = .error failure)
    (hleads : ∀ room, Leads room (call Rule.file) (Cursor.ofText source) [] Q E) :
    E failure (run source depth (call .file)).journal := by
  have hmeets : (run source depth (call .file)).Meets Q E := hleads _ _
  obtain ⟨journal, hrun⟩ := exists_run_of_parse h
  rw [hrun] at hmeets ⊢
  exact hmeets

/-! ### Reports -/

/-- What is reported is decided on the report. -/
instance decidableReported (P : ParseError → Prop) [DecidablePred P] :
    ∀ read : Except Failure Block, Decidable (∃ e, read = .error (.parse e) ∧ P e)
  | .error (.parse e) => decidable_of_iff (P e) ⟨fun h => ⟨e, rfl, h⟩, fun ⟨_, hread, h⟩ =>
      Failure.parse.inj (Except.error.inj hread) ▸ h⟩
  | .error (.error _) | .error (.diagnostic _) | .error (.lexical _) | .error (.missingPath _)
  | .error (.fileParse ..) | .error (.internal _) | .error (.misuse _) | .ok _ =>
    isFalse fun ⟨_, hread, _⟩ => nomatch hread

/-- What is reported for a script is an error of the grammar, and what it says of the text is true. -/
theorem shows_of_parse (h : parse source depth = .error failure) :
    ∃ e arguments, failure = .parse e ∧ e.arguments = some arguments ∧
      source.Shows e.location.offset e.code arguments := by
  obtain ⟨-, e, rfl, ⟨arguments, harguments, hshows⟩, -⟩ :=
    exists_of_parse h fun room => leads_file_tells room source
  exact ⟨e, arguments, rfl, harguments, hshows⟩

/-- A string that is never closed is reported at its quote. -/
theorem shows_of_parse_unterminated :
    ∃ e, parse "a = \"b" none = .error (.parse e) ∧ e.location.offset = 4 ∧
      Text.Shows "a = \"b" 4 .unterminatedString [] := by
  obtain ⟨e, hparse, hoffset, hcode, harguments⟩ : ∃ e : ParseError,
      parse "a = \"b" none = .error (.parse e) ∧ e.location.offset = 4 ∧
        e.code = .unterminatedString ∧ e.arguments = some [] := by decide +kernel
  obtain ⟨d, arguments, hd, hsome, hshows⟩ := shows_of_parse hparse
  obtain rfl := Failure.parse.inj hd
  rw [harguments] at hsome
  rw [hoffset, hcode, ← Option.some.inj hsome] at hshows
  exact ⟨e, hparse, hoffset, hshows⟩

/-- The conditions that a script can be reported for. -/
def announced : List Text :=
  ["GDS-P001", "GDS-P002", "GDS-P004", "GDS-L001", "GDS-L002", "GDS-L003"]

theorem id_mem_announced (h : e.IsTrueOf source) : e.code.id ∈ announced := by
  obtain ⟨⟨arguments, -, hshows⟩, -⟩ := h
  generalize e.code = code at hshows
  cases hshows <;> decide

/--
A script that is not read as a block is reported for one of the announced conditions, and no other
failure is ever written down. So text behind the script is no reason: where the lines of the script
stop before a line of code, a failure has been written down there or behind it.
-/
theorem isAnnounced_of_parse (source : Text) (depth : Option Int) :
    (∀ failure, parse source depth = .error failure →
      ∃ e, failure = .parse e ∧ e.code.id ∈ announced) ∧
    (∀ e ∈ (run source depth (call .file)).journal.failures, e.code.id ∈ announced) ∧
    ∀ lines c journal,
      run source depth (within Rule.file.label (call (.block 0 false))) = .finished lines c journal →
        c.ahead.drop c.ahead.codeDistance ≠ [] →
          ∃ b, journal.furthest = some b ∧ c.location.offset ≤ b.location.offset := by
  refine ⟨fun failure h => ?_, fun e he => ?_, fun lines c journal hrun hne => ?_⟩
  · obtain ⟨-, e, rfl, htrue⟩ := exists_of_parse h fun room => leads_file_tells room source
    exact ⟨e, rfl, id_mem_announced htrue⟩
  · have hmeets : (run source depth (call .file)).Meets _ _ := leads_file_tells _ source _
    cases hrun : run source depth (call .file) with
    | finished lines c journal =>
      rw [hrun] at hmeets he
      exact id_mem_announced (hmeets e he)
    | failed failure journal =>
      rw [hrun] at hmeets he
      exact id_mem_announced (hmeets.1 e he)
  · -- the block stops where an error was noted, unless no code is left
    have hleads : ∀ room, Leads room (within Rule.file.label (call (Rule.block 0 false)))
        (Cursor.ofText source) []
        (fun _ c' journal' => c'.ahead.nextCode ≠ [] → journal'.Reaches c'.location.offset)
        fun _ _ => True := fun room =>
      leads_within (fun _ => trivial) fun room => leads_call (fun _ => trivial) fun room =>
        leads_block_reaches 0 false _ []
    have hmeets : (run source depth (within Rule.file.label (call (Rule.block 0 false)))).Meets _ _ :=
      hleads _ _
    rw [hrun] at hmeets
    exact hmeets (by rwa [← Text.drop_codeDistance])

/-- A line that is indented where no block is stops the lines of a script. -/
theorem isAnnounced_of_parse_indented :
    (∃ e, parse "a\n b" none = .error (.parse e) ∧ e.code.id ∈ announced) ∧
      ∃ lines c journal, run "a\n b" none (within Rule.file.label (call (.block 0 false)))
          = .finished lines c journal ∧ c.location.offset = 1 ∧
        ∃ b, journal.furthest = some b ∧ 1 ≤ b.location.offset := by
  obtain ⟨hannounced, -, hstops⟩ := isAnnounced_of_parse "a\n b" none
  obtain ⟨e, hparse, -⟩ : ∃ e, parse "a\n b" none = .error (.parse e) ∧ e.recoverable = true := by
    decide +kernel
  obtain ⟨d, hd, hid⟩ := hannounced _ hparse
  -- the block is left behind `a`, in front of the line that is indented too far
  have hmeets : (run "a\n b" none (within Rule.file.label (call (.block 0 false)))).Meets
      (fun _ c _ => c.location.offset = 1 ∧ c.ahead.drop c.ahead.codeDistance ≠ [])
      fun _ _ => False := by decide +kernel
  refine ⟨⟨e, hparse, Failure.parse.inj hd ▸ hid⟩, ?_⟩
  cases hrun : run "a\n b" none (within Rule.file.label (call (.block 0 false))) with
  | finished lines c journal =>
    rw [hrun] at hmeets
    obtain ⟨hoffset, hne⟩ := hmeets
    obtain ⟨b, hb, hle⟩ := hstops lines c journal hrun hne
    exact ⟨lines, c, journal, rfl, hoffset, b, hb, hoffset ▸ hle⟩
  | failed failure journal =>
    rw [hrun] at hmeets
    exact hmeets.elim

/--
What is reported for a script is what got furthest in the end. When it could be recovered from,
nothing was raised or noted behind it, and at its place it is what was raised last, or noted first
where nothing was raised. How far the run got never gets less until the depth limit is exceeded, and
a rule that fails recoverably leaves the run as far as its failure.
-/
theorem isFurthest_of_parse (source : Text) (depth : Option Int) :
    (∀ failure, parse source depth = .error failure → ∃ e, failure = .parse e ∧
      (run source depth (call .file)).journal.furthest = some e ∧
        (e.recoverable = true → (run source depth (call .file)).journal.IsFurthest e)) ∧
    (∀ newest newer older b, (run source depth (call .file)).journal = newest ++ (newer ++ older) →
      Journal.WithinLimit newer → Journal.furthest older = some b →
        ∃ b', Journal.furthest (newer ++ older) = some b' ∧
          b.location.offset ≤ b'.location.offset) ∧
    ∀ {α : Type} (rule : Rule α) room scope c journal e journal',
      Grammar.run room (call rule) scope c journal = .failed (.parse e) journal' →
        e.recoverable = true →
          ∃ b, journal'.furthest = some b ∧ e.location.offset ≤ b.location.offset := by
  refine ⟨fun failure h => ?_, fun newest newer older b _ hlimit hbest => ?_,
    fun rule room scope c journal e journal' hrun he => (reaches_of_run_eq_failed hrun he).2⟩
  · obtain ⟨-, e, rfl, -⟩ := exists_of_parse h fun room => leads_file_tells room source
    obtain ⟨hfurthest, hlimit⟩ := exists_of_parse h fun room => leads_file_furthest room source
    refine ⟨e, rfl, hfurthest e rfl, fun he => ?_⟩
    -- a recoverable failure means that no limit was exceeded
    have hrec : (Failure.parse e).recoverable? ≠ none := by
      rw [Failure.recoverable?_parse he]
      simp
    exact Journal.isFurthest_of_furthest (hfurthest e rfl) (hlimit hrec)
  · have hreaches : Journal.Reaches older b.location.offset := ⟨b, hbest, Nat.le_refl _⟩
    exact hreaches.goesOn ⟨newer, rfl, hlimit⟩

/-- What stands behind a whole expression got furthest. -/
theorem isFurthest_of_parse_rest :
    ∃ e, parse "a b" none = .error (.parse e) ∧ e.location.offset = 2 ∧
      Journal.IsFurthest (run "a b" none (call .file)).journal e := by
  obtain ⟨e, hparse, hoffset, hrec⟩ : ∃ e, parse "a b" none = .error (.parse e) ∧
      e.location.offset = 2 ∧ e.recoverable = true := by decide +kernel
  obtain ⟨d, hd, -, hfurthest⟩ := (isFurthest_of_parse "a b" none).1 _ hparse
  obtain rfl := Failure.parse.inj hd
  exact ⟨e, hparse, hoffset, hfurthest hrec⟩

end GDScript.Script
