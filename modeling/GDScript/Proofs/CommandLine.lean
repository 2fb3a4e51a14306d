import GDScript.CommandLine
import GDScript.Proofs.Batch
import GDScript.Proofs.Settings

/-!
# What a run of the program comes to

A run of the program complains, answers, or reports on the scripts of a directory, and it does one of
the three only: nothing can fail once the first report has been written. `Command.endingFor` says which
one, from the arguments, the files and the reader of the settings file alone, and
`Command.comesTo_runArguments` shows that a run comes to it. From there on the law of the two streams
and of the exit code (`Command.runArguments_streams`) is about three kinds of endings.

What the reader warns of is passed on to the error stream, too. It has no part in the law: it is what
the run has been given, and not what has gone wrong with it.

The format of a single script is the one after the last option for it
(`Command.isLastFormat_of_pathAndFormat`), or else the one that the settings file names
(`Settings.format_of_found`).
-/

namespace GDScript

/-! ### A run over a path -/

namespace Batch

variable (files : Files) (options : Options)

/-- What a run over a path leads to. -/
def resultAt (path : Text) : Except Failure Result :=
  match files.kind path with
  | .error reason => .error (.error reason)
  | .ok .missing => .error (.missingPath path)
  | .ok .file => (scriptAt files options path).map .script
  | .ok .directory =>
    match files.list path options.extension with
    | .error _ => .error (.missingPath path)
    | .ok paths => .ok (.directory (paths.map (reportAt files options)))

/-- The lines that are written about a result, if there is one. -/
def linesOf (format : OutputFormat) : Except Failure Result → List Text
  | .error _ => []
  | .ok (.script tree) => [format.render tree]
  | .ok (.directory reports) => reports.map Report.line

theorem run_runFile (path : Text) (t : Transcript) :
    ∃ reads, (runFile files.host path options).run t = pure (scriptAt files options path, { t with
      reads := reads
      outputs := t.outputs ++ linesOf options.format ((scriptAt files options path).map .script) }) := by
  refine ⟨t.reads ++ [path], ?_⟩
  unfold runFile
  rw [StateT.run_bind, run_readScript]
  cases scriptAt files options path with
  | error failure =>
    have hlines : linesOf options.format ((Except.error failure).map .script) = [] := rfl
    rw [hlines, List.append_nil]
    rfl
  | ok tree => rfl

theorem run_runDirectory {path : Text} {paths : List Text} (t : Transcript)
    (h : files.list path options.extension = .ok paths) :
    ∃ reads, (runDirectory files.host path options).run t
      = pure (.ok (paths.map (reportAt files options)), { t with
        reads := reads
        outputs := t.outputs ++ paths.map fun path => (reportAt files options path).line }) := by
  refine ⟨t.reads ++ paths, ?_⟩
  unfold runDirectory
  have hlist : files.host.list path options.extension = pure (.ok paths) := congrArg pure h
  rw [hlist, pure_bind]
  exact run_runAll files options paths t

/-- A run over a path leads to its result, and writes the lines about it and nothing else. -/
theorem run_run (path : Text) (t : Transcript) :
    ∃ reads, (run files.host path options).run t = pure (resultAt files options path, { t with
      reads := reads
      outputs := t.outputs ++ linesOf options.format (resultAt files options path) }) := by
  unfold run resultAt
  have hhost : files.host.kind path = pure (files.kind path) := rfl
  rw [hhost, pure_bind]
  -- the kind of the path decides between a file, a directory and a complaint
  obtain reason | (- | - | -) := files.kind path
  · refine ⟨t.reads, ?_⟩
    simp only [linesOf, List.append_nil]
    rfl
  · obtain ⟨reads, hrun⟩ := run_runFile files options path t
    refine ⟨reads, ?_⟩
    simp only [StateT.run_bind, hrun]
    rfl
  · -- a directory that cannot be listed gives one complaint and no report
    cases hlist : files.list path options.extension with
    | error reason =>
      refine ⟨t.reads, ?_⟩
      have hpaths : files.host.list path options.extension = pure (.error reason) :=
        congrArg pure hlist
      simp only [runDirectory, hpaths, linesOf, List.append_nil]
      rfl
    | ok paths =>
      obtain ⟨reads, hrun⟩ := run_runDirectory files options t hlist
      refine ⟨reads, ?_⟩
      simp only [StateT.run_bind, hrun, linesOf, List.map_map]
      rfl
  · refine ⟨t.reads, ?_⟩
    simp only [linesOf, List.append_nil]
    rfl

end Batch

/-- A report tells of something wrong exactly if there is no script. -/
theorem Batch.Report.hasFailed_iff (report : Batch.Report) :
    report.hasFailed = true ↔ ∃ failure, report.result = .error failure := by
  unfold hasFailed detail
  cases report.result with
  | ok tree => simp
  | error failure => simp

/-! ### The format among the arguments -/

namespace Command

/-- The word that asks for a format. -/
def formatWord : OutputFormat → Text
  | .debug => "debug"
  | .json => "json"

/-- The arguments that ask for a format. -/
def formatPair (f : OutputFormat) : List Text := ["--format", formatWord f]

/-- The format is named after the last option for it. -/
def IsLastFormat (arguments : List Text) (f : OutputFormat) : Prop :=
  ∃ before after, arguments = before ++ formatPair f ++ after ∧ ("--format" : Text) ∉ after

theorem IsLastFormat.cons {arguments : List Text} {f : OutputFormat}
    (h : IsLastFormat arguments f) (argument : Text) : IsLastFormat (argument :: arguments) f := by
  obtain ⟨before, after, rfl, hafter⟩ := h
  exact ⟨argument :: before, after, rfl, hafter⟩

theorem name_eq_formatWord (f : OutputFormat) : f.name = formatWord f := by
  cases f <;> rfl

/-- A format is asked for by its word. -/
theorem formatOf_eq_ok_iff {name : Text} {f : OutputFormat} :
    formatOf name = .ok f ↔ name = formatWord f := by
  rw [← name_eq_formatWord]
  unfold formatOf
  constructor
  · intro h
    -- the name is found in the table, and no other one has this format
    cases hname : OutputFormat.ofName? name with
    | none =>
      rw [hname] at h
      cases h
    | some f' =>
      rw [hname] at h
      cases h
      exact OutputFormat.name_of_ofName? hname
  · rintro rfl
    rw [OutputFormat.ofName?_name]

/-- The format that is asked for is the last one named, or else the one found before. -/
theorem isLastFormat_of_pathAndFormat {path : Text} {found : Option Text}
    {before format : Option OutputFormat} {arguments : List Text}
    (h : pathAndFormat found before arguments = .ok (.parse path format)) :
    (("--format" : Text) ∉ arguments ∧ format = before) ∨
      ∃ f, format = some f ∧ IsLastFormat arguments f := by
  induction found, before, arguments using pathAndFormat.induct with
  | case1 =>
    -- all arguments have been read, and there is a path
    cases h
    exact .inl ⟨List.not_mem_nil, rfl⟩
  | case2 => cases h
  | case3 found before argument hoption =>
    -- no format follows the option
    rw [pathAndFormat, if_pos hoption] at h
    cases h
  | case4 found before argument hoption name more ih =>
    rw [pathAndFormat, if_pos hoption] at h
    obtain ⟨f, hf, hmore⟩ := exists_of_bind_eq_ok h
    obtain rfl : argument = "--format" := eq_of_beq hoption
    obtain rfl : name = formatWord f := formatOf_eq_ok_iff.mp hf
    obtain ⟨hnone, rfl⟩ | ⟨f', rfl, hlast⟩ := ih f hmore
    · exact .inr ⟨f, rfl, [], more, rfl, hnone⟩
    · exact .inr ⟨f', rfl, (hlast.cons (formatWord f)).cons "--format"⟩
  | case5 found before argument rest hargument hoption =>
    rw [pathAndFormat.eq_def] at h
    simp only [hargument, hoption] at h
    cases h
  | case6 found before argument rest hargument hoption hfound =>
    rw [pathAndFormat.eq_def] at h
    simp only [hargument, hoption, hfound] at h
    cases h
  | case7 found before argument rest hargument hoption hfound ih =>
    rw [pathAndFormat.eq_def] at h
    simp only [hargument, hoption, hfound] at h
    obtain ⟨hnone, rfl⟩ | ⟨f, rfl, hlast⟩ := ih h
    · refine .inl ⟨?_, rfl⟩
      rintro (_ | ⟨_, hmem⟩)
      · exact hargument (beq_self_eq_true _)
      · exact hnone hmem
    · exact .inr ⟨f, rfl, hlast.cons argument⟩

theorem idAfter_ne_parse {arguments : List Text} {path : Text} {format : Option OutputFormat} :
    idAfter arguments ≠ .ok (.parse path format) := by
  intro h
  cases arguments with
  | nil => cases h
  | cons id rest =>
    rw [idAfter] at h
    split at h <;> cases h

/-- Where a path is to be read, its format is the last one among the arguments, if there is one. -/
theorem isLastFormat_of_ofArguments {arguments : List Text} {path : Text}
    {format : Option OutputFormat} (h : ofArguments arguments = .ok (.parse path format)) :
    (("--format" : Text) ∉ arguments ∧ format = none) ∨
      ∃ f, format = some f ∧ IsLastFormat arguments f := by
  unfold ofArguments at h
  split at h
  · cases h
  split at h
  · cases h
  split at h
  · exact absurd h idAfter_ne_parse
  · exact isLastFormat_of_pathAndFormat h

/--
The format of a single script: the last one among the arguments, or else the one in the settings file,
or else `debug`.
-/
def IsFormat (reader : Document.Reader) (files : Files) (arguments : List Text) (f : OutputFormat) :
    Prop :=
  IsLastFormat arguments f ∨
    (("--format" : Text) ∉ arguments ∧ f = (Settings.configuredFormat reader files).getD .debug)

theorem isFormat_options {reader : Document.Reader} {files : Files} {arguments : List Text}
    {path : Text} {format : Option OutputFormat} {settings : Option Settings}
    (hcommand : ofArguments arguments = .ok (.parse path format))
    (hfound : Settings.found reader files = .ok settings) :
    IsFormat reader files arguments (options (settings.getD .default) format).format := by
  obtain ⟨hnone, rfl⟩ | ⟨f, rfl, hlast⟩ := isLastFormat_of_ofArguments hcommand
  · exact .inr ⟨hnone, Settings.format_of_found hfound⟩
  · exact .inl hlast

/-! ### Endings -/

/-- What a run comes to. -/
inductive Ending where
  /-- Something has gone wrong, and the run tells what. -/
  | complaint (text : Text)
  /-- A single text is the result. -/
  | answer (text : Text)
  /-- The scripts of a directory have been reported on. -/
  | reports (found : List Batch.Report)

namespace Ending

/-- How a run ends that comes to this. -/
def status : Ending → Status
  | .complaint _ => .failure
  | .answer _ => .success
  | .reports found => if found.any Batch.Report.hasFailed then .failure else .success

/-- The lines of the result. -/
def outputs : Ending → List Text
  | .complaint _ => []
  | .answer text => [text]
  | .reports found => found.map Batch.Report.line

/-- The lines that tell what went wrong. -/
def complaints : Ending → List Text
  | .complaint text => [text]
  | .answer _ | .reports _ => []

/-- No run writes to both streams. -/
theorem outputs_eq_nil_or (e : Ending) : e.outputs = [] ∨ e.complaints = [] := by
  cases e with
  | complaint text => exact .inl rfl
  | answer text => exact .inr rfl
  | reports found => exact .inr rfl

theorem code_eq_one_iff {status : Status} : status.code = 1 ↔ status = .failure := by
  cases status <;> decide

theorem code_status_eq_one_iff (e : Ending) :
    e.status.code = 1 ↔ e.complaints ≠ [] ∨
      ∃ found, e = .reports found ∧ ∃ report ∈ found, ∃ failure, report.result = .error failure := by
  rw [code_eq_one_iff]
  cases e with
  | complaint text => exact ⟨fun _ => .inl (List.cons_ne_nil _ _), fun _ => rfl⟩
  | answer text => exact ⟨nofun, by rintro (h | ⟨found, h, -⟩) <;> exact nomatch h⟩
  -- only the reports of a directory end with a status of their own
  | reports found =>
    have hstatus : (Ending.reports found).status = .failure ↔
        ∃ report ∈ found, ∃ failure, report.result = .error failure := by
      show (if found.any Batch.Report.hasFailed then Status.failure else .success) = .failure ↔ _
      split
      · next h =>
        obtain ⟨report, hmem, hfailed⟩ := List.any_eq_true.mp h
        exact iff_of_true rfl ⟨report, hmem, report.hasFailed_iff.mp hfailed⟩
      · next h =>
        refine iff_of_false nofun fun ⟨report, hmem, hfailed⟩ => h ?_
        exact List.any_eq_true.mpr ⟨report, hmem, report.hasFailed_iff.mpr hfailed⟩
    rw [hstatus]
    constructor
    · exact fun h => .inr ⟨found, rfl, h⟩
    · rintro (h | ⟨found', h, hfailed⟩)
      · exact absurd rfl h
      · cases h
        exact hfailed

end Ending

/-- What a run over a path comes to that has led to this. -/
def Ending.ofResult (format : OutputFormat) : Except Failure Batch.Result → Ending
  | .error failure => .complaint failure.report
  | .ok (.script tree) => .answer (format.render tree)
  | .ok (.directory found) => .reports found

section

variable (reader : Document.Reader) (files : Files)

/-- What a run that does this comes to. -/
def endingOf : Command → Ending
  | .help => .answer helpText
  | .version => .answer versionText
  | .explain id =>
    match Code.explain id with
    | some text => .answer text
    | none => .complaint ("Unknown error ID: " ++ id)
  | .parse path format =>
    match Settings.found reader files with
    | .error e => .complaint e.message
    | .ok settings =>
      let options := options (settings.getD .default) format
      .ofResult options.format (Batch.resultAt files options path)

/-- What a run with some arguments comes to. -/
def endingFor (arguments : List Text) : Ending :=
  match ofArguments arguments with
  | .error e => .complaint e.message
  | .ok command => endingOf reader files command

/-- What the reader warns of in a run that does this: only a path makes it read the settings. -/
def warningsOf : Command → List Text
  | .parse _ _ => Settings.warningsIn reader files
  | _ => []

/-- What the reader warns of in a run with some arguments. -/
def warningsFor (arguments : List Text) : List Text :=
  match ofArguments arguments with
  | .error _ => []
  | .ok command => warningsOf reader files command

/-- A run passes on what the reader warns of in the settings file, or nothing. -/
theorem warningsFor_eq_nil_or (arguments : List Text) :
    warningsFor reader files arguments = [] ∨
      warningsFor reader files arguments = Settings.warningsIn reader files := by
  unfold warningsFor
  cases ofArguments arguments with
  | error e => exact .inl rfl
  | ok command =>
    cases command with
    | help | version | explain id => exact .inl rfl
    | parse path format => exact .inr rfl

/-- The settings are read for the command to parse alone, so the others warn of nothing. -/
theorem warningsFor_eq_nil {arguments : List Text}
    (h : ∀ path format, ofArguments arguments ≠ .ok (.parse path format)) :
    warningsFor reader files arguments = [] := by
  unfold warningsFor
  cases hcommand : ofArguments arguments with
  | error e => rfl
  | ok command =>
    cases command with
    | help | version | explain id => rfl
    | parse path format => exact absurd hcommand (h path format)

end

/--
The action comes to this with such warnings: nothing else is written, whatever has been read on the way.
-/
def ComesTo (action : StateM Transcript Status) (warnings : List Text) (e : Ending) : Prop :=
  ∀ t : Transcript, ∃ reads, action.run t = pure (e.status,
    ⟨reads, t.outputs ++ e.outputs, t.complaints ++ e.complaints, t.warnings ++ warnings⟩)

variable {reader : Document.Reader} {files : Files}

theorem comesTo_complain (text : Text) : ComesTo (complain files.host text) [] (.complaint text) := by
  intro t
  refine ⟨t.reads, ?_⟩
  rw [Ending.outputs, List.append_nil, List.append_nil]
  rfl

theorem comesTo_answer (text : Text) : ComesTo (answer files.host text) [] (.answer text) := by
  intro t
  refine ⟨t.reads, ?_⟩
  rw [Ending.complaints, List.append_nil, List.append_nil]
  rfl

/-- A run over a path writes the lines about its result, or complains. -/
theorem comesTo_runPath {path : Text} {format : Option OutputFormat} {settings : Option Settings}
    (h : Settings.found reader files = .ok settings) :
    ComesTo (runPath reader files.host path format) (Settings.warningsIn reader files)
      (.ofResult (options (settings.getD .default) format).format
        (Batch.resultAt files (options (settings.getD .default) format) path)) := by
  intro t
  obtain ⟨reads, hload⟩ := Settings.run_load reader files t
  generalize hloaded : ({ t with
    reads := reads
    warnings := t.warnings ++ Settings.warningsIn reader files } : Transcript) = loaded at hload
  obtain ⟨reads', hrun⟩ :=
    Batch.run_run files (options (settings.getD .default) format) path loaded
  subst hloaded
  unfold runPath
  rw [StateT.run_bind, hload, h]
  simp only [pure_bind, StateT.run_bind, hrun]
  -- all lines have been written by now, and only a failure is still to be told
  obtain failure | (tree | found) :=
    Batch.resultAt files (options (settings.getD .default) format) path
  · refine ⟨reads', ?_⟩
    rw [Ending.ofResult, Ending.outputs]
    rfl
  · refine ⟨reads', ?_⟩
    rw [Ending.ofResult, Ending.complaints, List.append_nil]
    rfl
  · refine ⟨reads', ?_⟩
    rw [Ending.ofResult, Ending.complaints, List.append_nil]
    rfl

/-- A run comes to what the command and the files make of it. -/
theorem comesTo_run (command : Command) :
    ComesTo (command.run reader files.host) (warningsOf reader files command)
      (endingOf reader files command) := by
  cases command with
  | help => exact comesTo_answer helpText
  | version => exact comesTo_answer versionText
  | explain id =>
    simp only [run, endingOf, warningsOf]
    cases Code.explain id with
    | none => exact comesTo_complain _
    | some text => exact comesTo_answer text
  | parse path format =>
    simp only [run, endingOf, warningsOf]
    cases hfound : Settings.found reader files with
    -- what cannot be loaded is complained about before the path is looked at
    | error e =>
      intro t
      obtain ⟨reads, hload⟩ := Settings.run_load reader files t
      refine ⟨reads, ?_⟩
      unfold runPath
      rw [StateT.run_bind, hload, hfound, Ending.outputs, List.append_nil]
      rfl
    | ok settings => exact comesTo_runPath hfound

theorem comesTo_runArguments (reader : Document.Reader) (files : Files) (arguments : List Text) :
    ComesTo (runArguments reader files.host arguments) (warningsFor reader files arguments)
      (endingFor reader files arguments) := by
  unfold runArguments endingFor warningsFor
  cases ofArguments arguments with
  | error e => exact comesTo_complain e.message
  | ok command => exact comesTo_run command

/-- Only a run over a path asks for files, and for the settings. -/
theorem runArguments_congr {arguments : List Text}
    (h : ∀ path format, ofArguments arguments ≠ .ok (.parse path format))
    (reader' : Document.Reader) (other : Files) :
    runArguments reader' other.host arguments = runArguments reader files.host arguments := by
  unfold runArguments
  cases hcommand : ofArguments arguments with
  | error e => rfl
  | ok command =>
    cases command with
    | help | version | explain id => rfl
    | parse path format => exact absurd hcommand (h path format)

/-! ### The law of a run -/

/-- A script of the directory that a run is asked for fails. -/
def ReportsError (reader : Document.Reader) (files : Files) (arguments : List Text) : Prop :=
  ∃ path format settings paths,
    ofArguments arguments = .ok (.parse path format) ∧
    Settings.found reader files = .ok settings ∧
    files.kind path = .ok .directory ∧
    files.list path (settings.getD .default).extension = .ok paths ∧
    ∃ script ∈ paths, ∃ failure,
      Batch.scriptAt files (options (settings.getD .default) format) script = .error failure

theorem ofResult_eq_reports_iff {format : OutputFormat} {result : Except Failure Batch.Result}
    {found : List Batch.Report} :
    Ending.ofResult format result = .reports found ↔ result = .ok (.directory found) := by
  constructor
  · intro h
    obtain failure | (tree | reports) := result <;> cases h
    rfl
  · rintro rfl
    rfl

theorem resultAt_eq_directory_iff {options : Batch.Options} {path : Text}
    {found : List Batch.Report} :
    Batch.resultAt files options path = .ok (.directory found) ↔
      files.kind path = .ok .directory ∧
        ∃ paths, files.list path options.extension = .ok paths ∧
          found = paths.map (Batch.reportAt files options) := by
  unfold Batch.resultAt
  obtain reason | (- | - | -) := files.kind path
  · exact ⟨nofun, by rintro ⟨h, -⟩; exact nomatch h⟩
  · cases Batch.scriptAt files options path <;>
      exact ⟨nofun, by rintro ⟨h, -⟩; exact nomatch h⟩
  · cases files.list path options.extension with
    | error reason => exact ⟨nofun, by rintro ⟨-, paths, h, -⟩; exact nomatch h⟩
    | ok paths => simp [eq_comm]
  · exact ⟨nofun, by rintro ⟨h, -⟩; exact nomatch h⟩

theorem endingFor_of_eq {arguments : List Text} {command : Command}
    (h : ofArguments arguments = .ok command) :
    endingFor reader files arguments = endingOf reader files command := by
  unfold endingFor
  rw [h]

theorem endingOf_parse {path : Text} {format : Option OutputFormat} {settings : Option Settings}
    (h : Settings.found reader files = .ok settings) :
    endingOf reader files (.parse path format) =
      .ofResult (options (settings.getD .default) format).format
        (Batch.resultAt files (options (settings.getD .default) format) path) := by
  simp only [endingOf, h]

/-- Only a run over a path reports, and only with settings. -/
theorem exists_of_endingOf_eq_reports {command : Command} {found : List Batch.Report}
    (h : endingOf reader files command = .reports found) :
    ∃ path format settings, command = .parse path format ∧
      Settings.found reader files = .ok settings := by
  cases command with
  | help | version => cases h
  | explain id =>
    simp only [endingOf] at h
    split at h <;> cases h
  | parse path format =>
    simp only [endingOf] at h
    split at h
    · cases h
    · exact ⟨path, format, _, rfl, ‹_›⟩

/-- A run comes to reports with an error exactly where a script of its directory fails. -/
theorem reportsError_iff (arguments : List Text) :
    ReportsError reader files arguments ↔
      ∃ found, endingFor reader files arguments = .reports found ∧
        ∃ report ∈ found, ∃ failure, report.result = .error failure := by
  constructor
  · rintro ⟨path, format, settings, paths, hcommand, hfound, hkind, hlist, script, hmem, hfailed⟩
    refine ⟨_, ?_, Batch.reportAt files _ script, List.mem_map_of_mem hmem, hfailed⟩
    rw [endingFor_of_eq hcommand, endingOf_parse hfound]
    exact ofResult_eq_reports_iff.mpr (resultAt_eq_directory_iff.mpr ⟨hkind, paths, hlist, rfl⟩)
  · -- reports are written for an accepted command to parse a directory alone
    rintro ⟨found, hending, report, hmem, hfailed⟩
    cases hcommand : ofArguments arguments with
    | error e =>
      rw [endingFor, hcommand] at hending
      cases hending
    | ok command =>
      rw [endingFor_of_eq hcommand] at hending
      obtain ⟨path, format, settings, rfl, hfound⟩ := exists_of_endingOf_eq_reports hending
      rw [endingOf_parse hfound] at hending
      obtain ⟨hkind, paths, hlist, rfl⟩ :=
        resultAt_eq_directory_iff.mp (ofResult_eq_reports_iff.mp hending)
      obtain ⟨script, hscript, rfl⟩ := List.mem_map.mp hmem
      exact ⟨path, format, settings, paths, hcommand, hfound, hkind, hlist, script, hscript, hfailed⟩

/-- What is written about a single script: its tree, if there are settings and there is a tree. -/
theorem outputs_endingFor_parse {arguments : List Text} {path : Text} {format : Option OutputFormat}
    (hcommand : ofArguments arguments = .ok (.parse path format))
    (hkind : files.kind path = .ok .file) :
    ((∃ e, Settings.found reader files = .error e) ∧ (endingFor reader files arguments).outputs = []) ∨
      ∃ settings f, Settings.found reader files = .ok settings ∧
        IsFormat reader files arguments f ∧ (endingFor reader files arguments).outputs =
          match Batch.scriptAt files (options (settings.getD .default) format) path with
          | .ok tree => [f.render tree]
          | .error _ => [] := by
  rw [endingFor_of_eq hcommand]
  cases hfound : Settings.found reader files with
  | error e =>
    refine .inl ⟨⟨e, rfl⟩, ?_⟩
    simp only [endingOf, hfound]
    rfl
  | ok settings =>
    refine .inr ⟨settings, _, rfl, isFormat_options hcommand hfound, ?_⟩
    rw [endingOf_parse hfound, Batch.resultAt, hkind]
    -- a file gives one tree on the output, or a complaint
    cases Batch.scriptAt files (options (settings.getD .default) format) path <;> rfl

/-- A reader that knows one document, a mapping with one member. -/
def jsonReader : Document.Reader := fun source =>
  if source = "format: json\n" then ⟨[], .ok (.mapping [("format", .text "json")])⟩
  else ⟨[], .error "Unexpected text"⟩

/-- A settings file that it reads, a script, and a text that is no script. -/
def configuredFiles : Files :=
  (ListedFiles.mk [(".gdparse.yaml", "format: json\n"), ("d/a.gd", "pass\n"), ("d/b.gd", "if:\n")]
    [] []).files

/-- The settings that the file gives. -/
def jsonSettings : Settings := { Settings.default with format := .json }

theorem isQuiet_jsonReader : Settings.IsQuiet jsonReader configuredFiles := by
  intro source _
  unfold jsonReader
  split <;> rfl

/-- The second text of the directory is no script, so that an error is reported. -/
theorem reportsError_configuredFiles : ReportsError jsonReader configuredFiles ["d"] := by
  have hfails : (Batch.scriptAt configuredFiles (options jsonSettings none) "d/b.gd").isOk =
      false := by decide +kernel
  refine ⟨"d", none, some jsonSettings, ["d/a.gd", "d/b.gd"], by rfl, rfl, by rfl, by rfl, "d/b.gd",
    by simp, ?_⟩
  cases hscript : Batch.scriptAt configuredFiles (options jsonSettings none) "d/b.gd" with
  | error failure => exact ⟨failure, hscript⟩
  | ok tree =>
    rw [hscript] at hfails
    cases hfails

end Command

end GDScript
