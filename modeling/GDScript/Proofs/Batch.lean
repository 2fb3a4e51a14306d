import GDScript.Batch
import GDScript.Files.Listed
import GDScript.Proofs.Report.Script

/-!
# The scripts of a directory

A run over a directory does with each script what a run over that script alone does
(`Batch.runDirectory_eq_runFile`). A script is what its path and its text make it (`Batch.scriptAt`);
neither run asks for anything else. What is wrong with a text is an error of the grammar, so it is wrong
with that script alone, and no script ends the run (`Batch.escaped_reportAt`).
-/

namespace GDScript.Batch

variable (files : Files) (options : Options)

/-! ### One script -/

/-- What the file at a path is as a script. -/
def scriptAt (path : Text) : Except Failure Block :=
  match files.read path with
  | .error reason => .error (unreadable path reason)
  | .ok source => parseText path source options

/-- The report on the file at a path. -/
def reportAt (path : Text) : Report := ⟨path, scriptAt files options path⟩

/-- Reading a script notes its path, whatever becomes of it. -/
theorem run_readScript (path : Text) (t : Transcript) :
    (readScript files.host path options).run t
      = pure (scriptAt files options path, { t with reads := t.reads ++ [path] }) := by
  unfold readScript scriptAt
  simp only [Files.host, StateT.run_bind, StateT.run_modify, pure_bind, StateT.run_pure]
  cases files.read path <;> rfl

/-- A run over a script leads to what the file is as a script. -/
theorem fst_run_runFile (path : Text) (t : Transcript) :
    ((runFile files.host path options).run t).1 = scriptAt files options path := by
  unfold runFile
  rw [StateT.run_bind, run_readScript]
  cases scriptAt files options path <;> rfl

/-- Only the text at the path matters. -/
theorem scriptAt_congr {files other : Files} {path : Text} (h : other.read path = files.read path) :
    scriptAt other options path = scriptAt files options path := by
  unfold scriptAt
  rw [h]

/-- What is wrong with a text is an error of the grammar. -/
theorem exists_of_parseText {path source : Text} {failure : Failure}
    (h : parseText path source options = .error failure) :
    ∃ e, Script.parse source options.depth = .error (.parse e) ∧
      failure = .fileParse path e.trace (some e) := by
  unfold parseText at h
  cases hparse : Script.parse source options.depth with
  | ok tree =>
    rw [hparse] at h
    cases h
  | error f =>
    obtain ⟨-, e, rfl, -⟩ := Script.exists_of_parse hparse fun room =>
      Script.leads_file_tells room source
    rw [hparse] at h
    cases h
    exact ⟨e, rfl, rfl⟩

/-- No script ends the run over its directory. -/
theorem escaped_reportAt (path : Text) : (reportAt files options path).escaped = none := by
  unfold Report.escaped reportAt
  cases hscript : scriptAt files options path with
  | ok tree => rfl
  | error failure =>
    -- reading and parsing fail about the script alone, so no failure escapes the batch
    have habout : Report.isAboutScript failure = true := by
      unfold scriptAt at hscript
      cases hread : files.read path with
      | error reason =>
        rw [hread] at hscript
        cases hscript
        rfl
      | ok source =>
        rw [hread] at hscript
        obtain ⟨e, -, rfl⟩ := exists_of_parseText options hscript
        rfl
    exact if_pos habout

/-! ### All scripts -/

/-- One report is written for each path, in the order of the paths. -/
theorem run_runAll (paths : List Text) (t : Transcript) :
    (runAll files.host options paths).run t = (.ok (paths.map (reportAt files options)),
      { t with
        reads := t.reads ++ paths
        outputs := t.outputs ++ paths.map fun path => (reportAt files options path).line }) := by
  -- on the paths: each reads its file and writes its line behind those before
  induction paths generalizing t with
  | nil =>
    rw [List.map_nil, List.map_nil, List.append_nil, List.append_nil]
    rfl
  | cons path rest ih =>
    have hescaped : Report.escaped ⟨path, scriptAt files options path⟩ = none :=
      escaped_reportAt files options path
    unfold runAll
    rw [StateT.run_bind, run_readScript]
    simp only [pure_bind, hescaped]
    simp only [Files.host, StateT.run_bind, StateT.run_modify, pure_bind]
    rw [← Files.host, ih]
    simp only [List.map_cons, List.append_assoc, List.singleton_append]
    rfl

/--
A run over a directory reads the paths of its listing one after the other, writes the line of each
report, and never fails: what it reports on a path is what a run over that path alone leads to, among
whatever other files. A directory that cannot be listed is missing, and nothing is read or written.
-/
theorem runDirectory_eq_runFile (root : Text) (before : Transcript) :
    (∀ reason, files.list root options.extension = .error reason →
      (runDirectory files.host root options).run before = (.error (.missingPath root), before)) ∧
    ∀ paths, files.list root options.extension = .ok paths → ∃ reports : List Report,
      (runDirectory files.host root options).run before
        = (.ok reports, { before with
            reads := before.reads ++ paths
            outputs := before.outputs ++ reports.map Report.line }) ∧
      reports.map Report.path = paths ∧
      ∀ report ∈ reports, ∀ other : Files, other.read report.path = files.read report.path →
        ∀ t, ((runFile other.host report.path options).run t).1 = report.result := by
  constructor
  · intro reason hlist
    unfold runDirectory
    simp only [Files.host, StateT.run_pure, pure_bind, hlist]
    rfl
  · intro paths hlist
    refine ⟨paths.map (reportAt files options), ?_, ?_, ?_⟩
    · have hrun : (runDirectory files.host root options).run before
          = (runAll files.host options paths).run before := by
        unfold runDirectory
        simp only [Files.host, pure_bind, hlist]
      rw [hrun, run_runAll, List.map_map]
      rfl
    · rw [List.map_map]
      exact List.map_id paths
    · -- a run over one file depends on what that file holds, not on the other files
      intro report hreport other hread t
      obtain ⟨path, -, rfl⟩ := List.mem_map.mp hreport
      rw [fst_run_runFile]
      exact scriptAt_congr options hread

/-- Two scripts, one that is no script, and one that cannot be read, the first of them listed twice. -/
def mixedFiles : ListedFiles where
  texts := [("d/a.gd", "pass\n"), ("d/b.gd", "if:\n"), ("d/c.gd", "x = 1\n"), ("d/a.gd", "")]
  unreadable := ["d/c.gd"]
  unlistable := ["e"]

/--
A directory that cannot be listed fails as a whole. One that can has a report for each path, also
for the one that is listed twice: the later of its two texts is never read.
-/
theorem runDirectory_eq_runFile_mixed :
    (runDirectory mixedFiles.files.host "e" .default).run .empty
      = (.error (.missingPath "e"), .empty) ∧
    ∃ reports : List Report,
      (runDirectory mixedFiles.files.host "d" .default).run .empty
        = (.ok reports, { Transcript.empty with
            reads := ["d/a.gd", "d/b.gd", "d/c.gd", "d/a.gd"]
            outputs := reports.map Report.line }) ∧
      reports.map Report.path = (["d/a.gd", "d/b.gd", "d/c.gd", "d/a.gd"] : List Text) ∧
      ∀ report ∈ reports,
        ((runFile mixedFiles.files.host report.path .default).run .empty).1 = report.result := by
  -- the listing of `e` is denied, and the one of `d` repeats a path
  refine ⟨(runDirectory_eq_runFile mixedFiles.files .default "e" .empty).1 ListedFiles.denied (by rfl),
    ?_⟩
  obtain ⟨reports, hrun, hpaths, hruns⟩ :=
    (runDirectory_eq_runFile mixedFiles.files .default "d" .empty).2
      ["d/a.gd", "d/b.gd", "d/c.gd", "d/a.gd"] (by rfl)
  exact ⟨reports, hrun, hpaths, fun report hreport => hruns report hreport _ rfl _⟩

end GDScript.Batch
