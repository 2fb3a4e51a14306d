import GDScript.Proofs.CommandLine

/-!
# The arguments that are accepted

Some arguments are accepted exactly if they ask for one of four things (`Command.AsksFor`). Help comes
before the version, and the version before the documentation of a code, wherever the options for them
stand. Without these options there must be a single path, with any number of options for a format in
front of it and behind it: the place of the path does not matter, and the last format counts
(`Command.ofArguments_accepts_exactly`).
-/

namespace GDScript

namespace Command

/-! ### What arguments ask for -/

/-- The argument begins with a hyphen. -/
def IsHyphened (argument : Text) : Prop := ∃ rest : Text, argument = ("-" : Text) ++ rest

theorem isOption_iff {argument : Text} : isOption argument = true ↔ IsHyphened argument := by
  cases argument with
  | nil => exact iff_of_false (by decide) fun ⟨_, h⟩ => nomatch h
  | cons u rest =>
    have hhyphen : ("-" : Text) = [0x2D] := rfl
    simp [isOption, IsHyphened, hhyphen]

theorem isOption_eq_false_iff {argument : Text} :
    isOption argument = false ↔ ¬IsHyphened argument := by
  rw [← isOption_iff, Bool.not_eq_true]

instance (argument : Text) : Decidable (IsHyphened argument) := decidable_of_iff _ isOption_iff

/-- The help text is asked for. -/
def AsksHelp (arguments : List Text) : Prop :=
  ("-h" : Text) ∈ arguments ∨ ("--help" : Text) ∈ arguments

/-- The version is asked for. -/
def AsksVersion (arguments : List Text) : Prop :=
  ("-v" : Text) ∈ arguments ∨ ("--version" : Text) ∈ arguments

instance (arguments : List Text) : Decidable (AsksHelp arguments) :=
  inferInstanceAs (Decidable (_ ∨ _))

instance (arguments : List Text) : Decidable (AsksVersion arguments) :=
  inferInstanceAs (Decidable (_ ∨ _))

/-- Neither help nor the version is asked for. -/
structure IsPlain (arguments : List Text) : Prop where
  no_help : ¬AsksHelp arguments
  no_version : ¬AsksVersion arguments

/-- Options for some formats, each with its value behind it. -/
def formatOptions (formats : List OutputFormat) : List Text := formats.flatMap formatPair

/-- The arguments ask for this, and what comes before it is not asked for. -/
inductive AsksFor (arguments : List Text) : Command → Prop where
  /-- There is an option for help. -/
  | help (asks : AsksHelp arguments) : AsksFor arguments .help
  /-- There is no option for help, but one for the version. -/
  | version (no_help : ¬AsksHelp arguments) (asks : AsksVersion arguments) :
      AsksFor arguments .version
  /-- An identifier follows the first option for the documentation of a code. -/
  | explain {before after : List Text} {id : Text} (plain : IsPlain arguments)
      (arguments_eq : arguments = before ++ ("--explain" : Text) :: id :: after)
      (first : ("--explain" : Text) ∉ before) (nonempty : id ≠ []) (no_hyphen : ¬IsHyphened id) :
      AsksFor arguments (.explain id)
  /-- There are a path and options for a format, and nothing else. -/
  | parse {before after : List OutputFormat} {path : Text} (plain : IsPlain arguments)
      (no_explain : ("--explain" : Text) ∉ arguments)
      (arguments_eq : arguments = formatOptions before ++ path :: formatOptions after)
      (no_hyphen : ¬IsHyphened path) :
      AsksFor arguments (.parse path (before ++ after).getLast?)

/-! ### A path and options for a format -/

theorem formatOptions_cons (f : OutputFormat) (formats : List OutputFormat) :
    formatOptions (f :: formats) = ("--format" : Text) :: formatWord f :: formatOptions formats := rfl

theorem getLast?_cons_or (f : OutputFormat) (formats : List OutputFormat)
    (found : Option OutputFormat) :
    (f :: formats).getLast?.or found = formats.getLast?.or (some f) := by
  rw [List.getLast?_cons]
  cases formats.getLast? <;> rfl

/-- An option for a format is read with its value. -/
theorem pathAndFormat_format (found : Option Text) (format : Option OutputFormat) (f : OutputFormat)
    (rest : List Text) :
    pathAndFormat found format (("--format" : Text) :: formatWord f :: rest) =
      pathAndFormat found (some f) rest := by
  have hoption : (("--format" : Text) == formatOption) = true := beq_self_eq_true formatOption
  rw [pathAndFormat, if_pos hoption, formatOf_eq_ok_iff.mpr rfl]
  rfl

/-- Options for a format are read one by one, and the last one is kept. -/
theorem pathAndFormat_append (found : Option Text) (format : Option OutputFormat)
    (formats : List OutputFormat) (rest : List Text) :
    pathAndFormat found format (formatOptions formats ++ rest) =
      pathAndFormat found (formats.getLast?.or format) rest := by
  induction formats generalizing format with
  | nil => rfl
  | cons f formats ih =>
    rw [formatOptions_cons, List.cons_append, List.cons_append, pathAndFormat_format, ih,
      getLast?_cons_or]

/-- A path is read where none has been found. -/
theorem pathAndFormat_path {path : Text} (h : isOption path = false)
    (format : Option OutputFormat) (rest : List Text) :
    pathAndFormat none format (path :: rest) = pathAndFormat (some path) format rest := by
  have hne : path ≠ formatOption := by
    rintro rfl
    exact absurd h (by decide)
  rw [pathAndFormat.eq_def]
  simp [hne, h]

/-- What the first argument is where reading succeeds. -/
theorem pathAndFormat_eq_ok {found : Option Text} {format : Option OutputFormat}
    {argument : Text} {rest : List Text} {command : Command}
    (h : pathAndFormat found format (argument :: rest) = .ok command) :
    (argument = "--format" ∧ ∃ f more, rest = formatWord f :: more ∧
      pathAndFormat found (some f) more = .ok command) ∨
    (found = none ∧ isOption argument = false ∧
      pathAndFormat (some argument) format rest = .ok command) := by
  rw [pathAndFormat.eq_def] at h
  simp only at h
  split at h
  -- `--format` needs a name behind it
  next hformat =>
    obtain rfl : argument = formatOption := eq_of_beq hformat
    cases rest with
    | nil => cases h
    | cons name more =>
      obtain ⟨f, hf, hmore⟩ := exists_of_bind_eq_ok h
      exact .inl ⟨rfl, f, more, by rw [formatOf_eq_ok_iff.mp hf], hmore⟩
  next =>
    -- anything else is the path, unless it is an option or the path is known already
    split at h
    · cases h
    next hoption =>
    split at h
    · cases h
    next hfound =>
    exact .inr ⟨by simpa using hfound, by simpa using hoption, h⟩

/-- Behind the path, options for a format are accepted and nothing else. -/
theorem exists_of_pathAndFormat_some {path : Text} {format : Option OutputFormat}
    {arguments : List Text} {command : Command}
    (h : pathAndFormat (some path) format arguments = .ok command) :
    ∃ formats, arguments = formatOptions formats ∧
      command = .parse path (formats.getLast?.or format) := by
  -- on the number of arguments, for an option for a format takes two of them
  induction hlength : arguments.length using Nat.strong_induction_on
    generalizing format arguments with
  | h n ih =>
    cases arguments with
    | nil =>
      cases h
      exact ⟨[], rfl, rfl⟩
    | cons argument rest =>
      obtain ⟨rfl, f, more, rfl, hmore⟩ | ⟨hfound, -⟩ := pathAndFormat_eq_ok h
      · have hlt : more.length < n := by
          rw [← hlength, List.length_cons, List.length_cons]
          omega
        obtain ⟨formats, rfl, rfl⟩ := ih more.length hlt hmore rfl
        exact ⟨f :: formats, rfl, by rw [getLast?_cons_or]⟩
      · cases hfound

/-- A path and options for a format are accepted and nothing else. -/
theorem exists_of_pathAndFormat {format : Option OutputFormat} {arguments : List Text}
    {command : Command} (h : pathAndFormat none format arguments = .ok command) :
    ∃ before path after, arguments = formatOptions before ++ path :: formatOptions after ∧
      isOption path = false ∧ command = .parse path ((before ++ after).getLast?.or format) := by
  -- on the number of arguments, for a format takes two of them
  induction hlength : arguments.length using Nat.strong_induction_on
    generalizing format arguments with
  | h n ih =>
    cases arguments with
    | nil => cases h
    | cons argument rest =>
      obtain ⟨rfl, f, more, rfl, hmore⟩ | ⟨-, hoption, hrest⟩ := pathAndFormat_eq_ok h
      · have hlt : more.length < n := by
          rw [← hlength, List.length_cons, List.length_cons]
          omega
        obtain ⟨before, path, after, rfl, hoption, rfl⟩ := ih more.length hlt hmore rfl
        exact ⟨f :: before, path, after, rfl, hoption, by rw [List.cons_append, getLast?_cons_or]⟩
      · obtain ⟨after, rfl, rfl⟩ := exists_of_pathAndFormat_some hrest
        exact ⟨[], argument, after, rfl, hoption, rfl⟩

/-- The options for a format may stand on either side of the path. -/
theorem pathAndFormat_around {path : Text} (h : isOption path = false)
    (before after : List OutputFormat) :
    pathAndFormat none none (formatOptions before ++ path :: formatOptions after) =
      .ok (.parse path (before ++ after).getLast?) := by
  have hend (format : Option OutputFormat) :
      pathAndFormat (some path) format (formatOptions after) =
        .ok (.parse path (after.getLast?.or format)) := by
    rw [← List.append_nil (formatOptions after), pathAndFormat_append]
    rfl
  rw [pathAndFormat_append, pathAndFormat_path h, hend, List.getLast?_append, Option.or_none]

/-! ### The option that comes first -/

/-- The first option for the documentation of a code parts the arguments in two. -/
theorem dropWhile_explainOption {before : List Text} (h : explainOption ∉ before)
    (after : List Text) :
    (before ++ explainOption :: after).dropWhile (· != explainOption) = explainOption :: after := by
  induction before with
  | nil => simp
  | cons argument before ih =>
    obtain ⟨hne, hmem⟩ := not_or.1 (List.mem_cons.not.1 h)
    rw [List.cons_append, List.dropWhile_cons_of_pos (by simpa using Ne.symm hne), ih hmem]

theorem isNoValue_iff {argument : Text} :
    isNoValue argument = true ↔ argument = [] ∨ isOption argument = true := by
  simp [isNoValue]

/-- An identifier that is no option may follow, and nothing else. -/
theorem idAfter_eq_ok_iff {arguments : List Text} {command : Command} :
    idAfter arguments = .ok command ↔ ∃ id rest, arguments = id :: rest ∧ id ≠ [] ∧
      isOption id = false ∧ command = .explain id := by
  cases arguments with
  | nil => simp [idAfter]
  | cons id rest =>
    rw [idAfter]
    split
    next hvalue => grind [isNoValue_iff]
    next hvalue => grind [isNoValue_iff]

theorem idAfter_eq_error_iff {arguments : List Text} :
    (∃ e, idAfter arguments = .error e) ↔ arguments = [] ∨
      ∃ id rest, arguments = id :: rest ∧ (id = [] ∨ isOption id = true) := by
  cases arguments with
  | nil => simp [idAfter]
  | cons id rest =>
    rw [idAfter]
    split
    next hvalue => simpa using isNoValue_iff.1 hvalue
    next hvalue => simpa using isNoValue_iff.not.1 hvalue

theorem any_helpOptions_iff {arguments : List Text} :
    arguments.any helpOptions.contains = true ↔ AsksHelp arguments := by
  simp [helpOptions, AsksHelp, and_or_left, exists_or, or_comm]

theorem any_versionOptions_iff {arguments : List Text} :
    arguments.any versionOptions.contains = true ↔ AsksVersion arguments := by
  simp [versionOptions, AsksVersion, and_or_left, exists_or, or_comm]

/-- Where neither help nor the version is asked for, only two things are left to ask for. -/
theorem IsPlain.ofArguments_eq {arguments : List Text} (h : IsPlain arguments) :
    ofArguments arguments = if ("--explain" : Text) ∈ arguments then
      idAfter ((arguments.dropWhile (· != explainOption)).drop 1)
    else pathAndFormat none none arguments := by
  unfold ofArguments
  rw [if_neg (any_helpOptions_iff.not.mpr h.no_help),
    if_neg (any_versionOptions_iff.not.mpr h.no_version)]
  simp only [List.contains_iff_mem]
  rfl

/-- The options before a path, the path and the options behind it are no other options. -/
theorem eq_or_isOption_eq_false {before after : List OutputFormat} {path argument : Text}
    (hpath : isOption path = false)
    (h : argument ∈ formatOptions before ++ path :: formatOptions after) :
    argument = "--format" ∨ isOption argument = false := by
  -- the names of formats do not start with a hyphen
  have hword (f : OutputFormat) : isOption (formatWord f) = false := by cases f <;> decide
  have hmem {formats : List OutputFormat} (h : argument ∈ formatOptions formats) :
      argument = "--format" ∨ isOption argument = false := by
    obtain ⟨f, -, hf⟩ := List.mem_flatMap.1 h
    obtain rfl | hf := List.mem_cons.1 hf
    · exact .inl rfl
    · obtain rfl := List.mem_singleton.1 hf
      exact .inr (hword f)
  obtain h | h := List.mem_append.1 h
  · exact hmem h
  obtain rfl | h := List.mem_cons.1 h
  · exact .inr hpath
  · exact hmem h

/-- No other option stands among a path and options for a format. -/
theorem notMem_around {path option : Text} (h : isOption path = false) (hne : option ≠ "--format")
    (hoption : isOption option = true) (before after : List OutputFormat) :
    option ∉ formatOptions before ++ path :: formatOptions after := by
  intro hmem
  obtain heq | hnot := eq_or_isOption_eq_false h hmem
  · exact hne heq
  · exact absurd (hnot.symm.trans hoption) (by decide)

theorem isPlain_around {path : Text} (h : isOption path = false)
    (before after : List OutputFormat) :
    IsPlain (formatOptions before ++ path :: formatOptions after) where
  no_help := not_or.mpr ⟨notMem_around h (by decide) (by decide) before after,
    notMem_around h (by decide) (by decide) before after⟩
  no_version := not_or.mpr ⟨notMem_around h (by decide) (by decide) before after,
    notMem_around h (by decide) (by decide) before after⟩

/-- A path among options for a format is read with the last one of them, wherever it stands. -/
theorem ofArguments_around {path : Text} (h : isOption path = false)
    (before after : List OutputFormat) :
    ofArguments (formatOptions before ++ path :: formatOptions after) =
      .ok (.parse path (before ++ after).getLast?) := by
  rw [(isPlain_around h before after).ofArguments_eq,
    if_neg (notMem_around h (by decide) (by decide) before after), pathAndFormat_around h]

/-- Behind the first option for the documentation of a code, its identifier is read. -/
theorem IsPlain.ofArguments_explain {before after : List Text}
    (h : IsPlain (before ++ ("--explain" : Text) :: after)) (hfirst : ("--explain" : Text) ∉ before) :
    ofArguments (before ++ ("--explain" : Text) :: after) = idAfter after := by
  rw [h.ofArguments_eq, if_pos (by simp)]
  exact congrArg (fun rest => idAfter (rest.drop 1)) (dropWhile_explainOption hfirst after)

/-! ### What is accepted -/

theorem AsksFor.ofArguments_eq {arguments : List Text} {command : Command}
    (h : AsksFor arguments command) : ofArguments arguments = .ok command := by
  -- the order of the options: help, version, an explanation, and then a file
  cases h with
  | help asks =>
    unfold ofArguments
    rw [if_pos (any_helpOptions_iff.mpr asks)]
  | version no_help asks =>
    unfold ofArguments
    rw [if_neg (any_helpOptions_iff.not.mpr no_help), if_pos (any_versionOptions_iff.mpr asks)]
  | explain plain arguments_eq first nonempty no_hyphen =>
    subst arguments_eq
    rw [plain.ofArguments_explain first]
    exact idAfter_eq_ok_iff.2 ⟨_, _, rfl, nonempty, isOption_eq_false_iff.mpr no_hyphen, rfl⟩
  | parse plain no_explain arguments_eq no_hyphen =>
    subst arguments_eq
    exact ofArguments_around (isOption_eq_false_iff.mpr no_hyphen) _ _

theorem asksFor_of_ofArguments {arguments : List Text} {command : Command}
    (h : ofArguments arguments = .ok command) : AsksFor arguments command := by
  -- each option is looked for where the ones before it are missing
  by_cases hhelp : AsksHelp arguments
  · rw [(AsksFor.help hhelp).ofArguments_eq] at h
    cases h
    exact .help hhelp
  by_cases hversion : AsksVersion arguments
  · rw [(AsksFor.version hhelp hversion).ofArguments_eq] at h
    cases h
    exact .version hhelp hversion
  have plain : IsPlain arguments := ⟨hhelp, hversion⟩
  by_cases hexplain : ("--explain" : Text) ∈ arguments
  · obtain ⟨before, after, rfl, hfirst⟩ := List.eq_append_cons_of_mem hexplain
    rw [plain.ofArguments_explain hfirst] at h
    obtain ⟨id, rest, rfl, hne, hoption, rfl⟩ := idAfter_eq_ok_iff.1 h
    exact .explain plain rfl hfirst hne (isOption_eq_false_iff.mp hoption)
  · rw [plain.ofArguments_eq, if_neg hexplain] at h
    obtain ⟨before, path, after, rfl, hoption, rfl⟩ := exists_of_pathAndFormat h
    rw [Option.or_none]
    exact .parse plain hexplain rfl (isOption_eq_false_iff.mp hoption)

/--
Arguments are accepted exactly as what they ask for. Where the documentation of a code is asked for, they
are refused exactly if no identifier follows. A path may change its place among options for a format.
-/
theorem ofArguments_accepts_exactly :
    (∀ arguments command, ofArguments arguments = .ok command ↔ AsksFor arguments command) ∧
    (∀ before after : List Text, IsPlain (before ++ ("--explain" : Text) :: after) →
      ("--explain" : Text) ∉ before →
      ((∃ e, ofArguments (before ++ ("--explain" : Text) :: after) = .error e) ↔
        after = [] ∨ ∃ id rest, after = id :: rest ∧ (id = [] ∨ IsHyphened id))) ∧
    ∀ path, ¬IsHyphened path → ∀ before after before' after' : List OutputFormat,
      before ++ after = before' ++ after' →
      ofArguments (formatOptions before ++ path :: formatOptions after) =
        ofArguments (formatOptions before' ++ path :: formatOptions after') := by
  refine ⟨fun arguments command => ⟨asksFor_of_ofArguments, AsksFor.ofArguments_eq⟩, ?_, ?_⟩
  · intro before after hplain hfirst
    rw [hplain.ofArguments_explain hfirst, idAfter_eq_error_iff]
    simp only [isOption_iff]
  · intro path hpath before after before' after' heq
    have hoption := isOption_eq_false_iff.mpr hpath
    rw [ofArguments_around hoption, ofArguments_around hoption, heq]

/--
Help comes before the version and what else there is, and the version before a code; of two formats the
last one counts, the path standing between them or in front; and an option is no identifier.
-/
theorem ofArguments_accepts_exactly_moved :
    ofArguments ["a.gd", "--version", "-h"] = .ok .help ∧
      ofArguments ["--explain", "-v", "--format"] = .ok .version ∧
      ofArguments ["a.gd", "--explain", "GDS-P002", "b.gd"] = .ok (.explain "GDS-P002") ∧
      ofArguments ["--format", "json", "a.gd", "--format", "debug"] =
        .ok (.parse "a.gd" (some .debug)) ∧
      (∃ e, ofArguments ["a.gd", "--explain", "--format"] = .error e) ∧
      ofArguments ["--format", "json", "a.gd", "--format", "debug"] =
        ofArguments ["a.gd", "--format", "json", "--format", "debug"] := by
  refine ⟨(ofArguments_accepts_exactly.1 _ _).2 ?_, (ofArguments_accepts_exactly.1 _ _).2 ?_,
    (ofArguments_accepts_exactly.1 _ _).2 ?_, (ofArguments_accepts_exactly.1 _ _).2 ?_, ?_, ?_⟩
  · -- help is asked for wherever `-h` stands, and then the version
    exact .help (by decide)
  · exact .version (by decide) (by decide)
  · exact @AsksFor.explain _ ["a.gd"] ["b.gd"] _ ⟨by decide, by decide⟩ rfl (by decide) (by decide)
      (by decide)
  · exact @AsksFor.parse _ [.json] [.debug] _ ⟨by decide, by decide⟩ (by decide) rfl (by decide)
  · exact (ofArguments_accepts_exactly.2.1 ["a.gd"] ["--format"] ⟨by decide, by decide⟩
      (by decide)).2 (.inr ⟨_, _, rfl, .inr (by decide)⟩)
  · exact ofArguments_accepts_exactly.2.2 "a.gd" (by decide) [.json] [.debug] [] [.json, .debug] rfl

end Command

end GDScript
