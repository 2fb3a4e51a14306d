import GDScript.Settings

/-!
# The settings of a run

Loading the settings writes nothing: it leads to what the settings file is, for the reader that is
brought along, and passes on what that reader warns of (`Settings.run_load`). The format of the
settings is the one that the member `format` of the document names, and the default one where there is
no such file, or no such member (`Settings.format_of_found`).
-/

namespace GDScript

/-! ### Computations that may fail -/

/-- Where two steps succeed, the first one does, and the second one after it. -/
theorem exists_of_bind_eq_ok {ε α β : Type} {x : Except ε α} {f : α → Except ε β} {b : β}
    (h : x >>= f = .ok b) : ∃ a, x = .ok a ∧ f a = .ok b := by
  cases x with
  | error e => cases h
  | ok a => exact ⟨a, rfl, h⟩

/-- Where a result is mapped, there has been one. -/
theorem exists_of_map_eq_ok {ε α β : Type} {x : Except ε α} {f : α → β} {b : β}
    (h : x.map f = .ok b) : ∃ a, x = .ok a ∧ b = f a := by
  cases x with
  | error e => cases h
  | ok a =>
    cases h
    exact ⟨a, rfl, rfl⟩

/-! ### The format among the settings -/

namespace Settings

/-- The format that a value names. -/
def formatNamed : Document → Option OutputFormat
  | .text name => if name = "debug" then some .debug else if name = "json" then some .json else none
  | _ => none

/-- The format that the member for it names. -/
def formatIn : Document → Option OutputFormat
  | .mapping members => (members.lookup ("format" : Text)).bind formatNamed
  | _ => none

/-- The text of the settings file, or why it cannot be read, if there is such a file. -/
def fileOf (files : Files) : Option (Except Text Text) :=
  match files.kind ".gdparse.yaml" with
  | .ok .file | .ok .directory => some (files.read ".gdparse.yaml")
  | _ => none

/-- The format that the settings file names, if there is such a file and it names one. -/
def configuredFormat (reader : Document.Reader) (files : Files) : Option OutputFormat :=
  match fileOf files with
  | some (.ok source) => (reader source).result.toOption.bind formatIn
  | _ => none

/-- What the reader warns of in the settings file. -/
def warningsIn (reader : Document.Reader) (files : Files) : List Text :=
  match fileOf files with
  | some (.ok source) => (reader source).warnings
  | _ => []

/-- The reader warns of nothing in the settings file. -/
def IsQuiet (reader : Document.Reader) (files : Files) : Prop :=
  ∀ source, fileOf files = some (.ok source) → (reader source).warnings = []

theorem IsQuiet.warningsIn_eq {reader : Document.Reader} {files : Files}
    (h : IsQuiet reader files) : warningsIn reader files = [] := by
  unfold warningsIn
  split
  · next source hsource => exact h source hsource
  · rfl

/-- The settings of the working directory among some files. -/
def found (reader : Document.Reader) (files : Files) : Except SettingsError (Option Settings) :=
  match fileOf files with
  | none => .ok none
  | some (.error reason) => .error (.unreadable reason)
  | some (.ok source) => (ofResult (reader source).result).map some

theorem run_readFile (files : Files) (t : Transcript) :
    ∃ reads, (readFile files.host).run t = pure (fileOf files, { t with reads := reads }) := by
  have hkind : files.host.kind fileName = pure (files.kind ".gdparse.yaml") := rfl
  unfold readFile fileOf
  rw [hkind, pure_bind]
  obtain reason | (- | - | -) := files.kind ".gdparse.yaml"
  · exact ⟨t.reads, rfl⟩
  · exact ⟨t.reads ++ [fileName], rfl⟩
  · exact ⟨t.reads ++ [fileName], rfl⟩
  · exact ⟨t.reads, rfl⟩

theorem run_forM_warn (files : Files) (warnings : List Text) (t : Transcript) :
    (warnings.forM files.host.warn).run t =
      pure ((), { t with warnings := t.warnings ++ warnings }) := by
  induction warnings generalizing t with
  | nil =>
    rw [List.append_nil]
    rfl
  | cons warning warnings ih =>
    show (warnings.forM files.host.warn).run { t with warnings := t.warnings ++ [warning] } = _
    rw [ih, List.append_assoc, List.singleton_append]

/-- Loading the settings leads to those found, and nothing but warnings is passed on. -/
theorem run_load (reader : Document.Reader) (files : Files) (t : Transcript) :
    ∃ reads, (load reader files.host).run t = pure (found reader files,
      { t with reads := reads, warnings := t.warnings ++ warningsIn reader files }) := by
  obtain ⟨reads, hfile⟩ := run_readFile files t
  refine ⟨reads, ?_⟩
  unfold load found warningsIn
  rw [StateT.run_bind, hfile, pure_bind]
  obtain - | (reason | source) := fileOf files
  · rw [List.append_nil]
    rfl
  · rw [List.append_nil]
    rfl
  · dsimp only
    rw [StateT.run_bind, run_forM_warn]
    rfl

/-- The formats have the names that a settings file may give. -/
theorem ofName?_eq_formatNamed (name : Text) :
    OutputFormat.ofName? name = formatNamed (.text name) := by
  unfold OutputFormat.ofName? formatNamed
  simp only [beq_iff_eq]
  rfl

theorem format_withExtension {value : Document} {s s' : Settings}
    (h : withExtension value s = .ok s') : s'.format = s.format := by
  unfold withExtension at h
  split at h
  · split at h
    · cases h
    · cases h
      rfl
  · cases h

theorem format_withDepth {value : Document} {s s' : Settings}
    (h : withDepth value s = .ok s') : s'.format = s.format := by
  unfold withDepth at h
  repeat' split at h
  all_goals cases h
  rfl

theorem format_withFormat {value : Document} {s s' : Settings}
    (h : withFormat value s = .ok s') : formatNamed value = some s'.format := by
  cases value with
  | text name =>
    cases hname : OutputFormat.ofName? name with
    | none => simp [withFormat, hname] at h
    | some f =>
      simp only [withFormat, hname] at h
      cases h
      exact (ofName?_eq_formatNamed name).symm.trans hname
  | null | boolean | number | list | mapping => cases h

/-- Where a member has been seen to, there was none, or it has been put in. -/
theorem of_withMember_eq_ok {members : List (Text × Document)} {key : Text}
    {put : Document → Settings → Except SettingsError Settings} {s s' : Settings}
    (h : withMember members key put s = .ok s') :
    (members.lookup key = none ∧ s' = s) ∨
      ∃ value, members.lookup key = some value ∧ put value s = .ok s' := by
  unfold withMember at h
  cases hlookup : members.lookup key with
  | none =>
    rw [hlookup] at h
    cases h
    exact .inl ⟨rfl, rfl⟩
  | some value =>
    rw [hlookup] at h
    exact .inr ⟨value, rfl, h⟩

/-- A member that puts in something else leaves the format as it is. -/
theorem format_of_withMember {members : List (Text × Document)} {key : Text}
    {put : Document → Settings → Except SettingsError Settings} {s s' : Settings}
    (hput : ∀ {value}, put value s = .ok s' → s'.format = s.format)
    (h : withMember members key put s = .ok s') : s'.format = s.format := by
  obtain ⟨-, rfl⟩ | ⟨value, -, hvalue⟩ := of_withMember_eq_ok h
  · rfl
  · exact hput hvalue

/-- The settings of a document have the format that it names, or else the default one. -/
theorem format_of_ofDocument {value : Document} {s : Settings} (h : ofDocument value = .ok s) :
    s.format = (formatIn value).getD .debug := by
  cases value with
  | null =>
    cases h
    rfl
  | mapping members =>
    simp only [ofDocument] at h
    split at h
    · cases h
    · obtain ⟨s₁, hextension, h⟩ := exists_of_bind_eq_ok h
      obtain ⟨s₂, hdepth, hformat⟩ := exists_of_bind_eq_ok h
      -- the other two members are put in first, and leave the default format as it is
      have hs₁ : s₁.format = .debug := format_of_withMember format_withExtension hextension
      have hs₂ : s₂.format = .debug := (format_of_withMember format_withDepth hdepth).trans hs₁
      have hin : formatIn (.mapping members) = (members.lookup formatKey).bind formatNamed := rfl
      obtain ⟨hnone, rfl⟩ | ⟨value, hsome, hvalue⟩ := of_withMember_eq_ok hformat
      · rw [hin, hnone, hs₂]
        rfl
      · rw [hin, hsome, Option.bind_some, format_withFormat hvalue]
        rfl
  | boolean | number | text | list => cases h

theorem format_of_ofResult {result : Except Text Document} {s : Settings}
    (h : ofResult result = .ok s) : s.format = (result.toOption.bind formatIn).getD .debug := by
  cases result with
  | error reason => cases h
  | ok document => exact format_of_ofDocument h

/-- The format of the settings is the one that their file names, or else the default one. -/
theorem format_of_found {reader : Document.Reader} {files : Files} {settings : Option Settings}
    (h : found reader files = .ok settings) :
    (settings.getD default).format = (configuredFormat reader files).getD .debug := by
  unfold found at h
  unfold configuredFormat
  generalize fileOf files = file at h ⊢
  obtain - | (reason | source) := file
  · cases h
    rfl
  · cases h
  · obtain ⟨s, hs, rfl⟩ := exists_of_map_eq_ok h
    exact format_of_ofResult hs

end Settings

end GDScript
