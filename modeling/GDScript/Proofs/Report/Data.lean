import GDScript.Proofs.Batch
import GDScript.Proofs.Lexeme.Digits
import Mathlib.Data.List.Basic
import Mathlib.Data.List.TakeDrop

/-!
# Diagnostics as data

The text of a diagnostic is its message and, where there is a location, ` at line:column` behind it.
What a host is given is told from the text: such a place at its very end is left out. So the message
comes back where a location was given, and where none was, unless the message itself ends in a place
(`Diagnostic.data_eq_iff`). Errors of the grammar always have a location; the failure to read a file
has none, and what is reported of it loses a place at its end.
-/

namespace GDScript

/-! ### Places in texts -/

namespace Text

/-- A line and a column, as a message ends with them. -/
def atPlace (line column : Text) : Text := " at " ++ line ++ ":" ++ column

/-- The text ends with ` at digits:digits`. -/
def EndsInPlace (t : Text) : Prop :=
  ∃ before line column : Text, line.IsRun CodeUnit.isDigit ∧ column.IsRun CodeUnit.isDigit ∧
    t = before ++ atPlace line column

theorem atPlace_ne_nil (line column : Text) : atPlace line column ≠ [] := by
  intro h
  have hlength := congrArg List.length h
  simp [atPlace, ofString, ofChar] at hlength

theorem reverse_atPlace (before line column : Text) :
    (before ++ atPlace line column).reverse = column.reverse
      ++ 0x3A :: (line.reverse ++ 0x20 :: 0x74 :: 0x61 :: 0x20 :: before.reverse) := by
  have hat : (" at " : Text) = [0x20, 0x61, 0x74, 0x20] := rfl
  have hcolon : (":" : Text) = [0x3A] := rfl
  simp [atPlace, hat, hcolon]

variable {p : CodeUnit → Bool} {s : Text}

/-- A run is read back from the unit behind it. -/
theorem IsRun.span_reverse (h : s.IsRun p) {u : CodeUnit} (hu : p u = false) (rest : Text) :
    (s.reverse ++ u :: rest).span p = (s.reverse, u :: rest) := by
  have hall : ∀ v ∈ s.reverse, p v = true := fun v hv => h.2 v (List.mem_reverse.mp hv)
  have hrest : Avoids p (u :: rest) := avoids_cons.mpr hu
  rw [List.span_eq_takeWhile_dropWhile, takeWhile_append hall hrest, dropWhile_append hall hrest]

theorem IsRun.isEmpty_reverse (h : s.IsRun p) : s.reverse.isEmpty = false := by
  rw [List.isEmpty_reverse]
  exact List.isEmpty_eq_false_iff.mpr h.1

/-- What is read of a class from the front, and what is left behind it. -/
theorem eq_append_span (p : CodeUnit → Bool) (s : Text) :
    s = (s.span p).1 ++ (s.span p).2 ∧ ∀ u ∈ (s.span p).1, p u = true := by
  rw [List.span_eq_takeWhile_dropWhile]
  exact ⟨List.takeWhile_append_dropWhile.symm, takeWhile_pos⟩

theorem isRun_reverse (hne : s.isEmpty = false) (h : ∀ u ∈ s, p u = true) : IsRun p s.reverse := by
  refine ⟨fun hnil => ?_, fun u hu => h u (List.mem_reverse.mp hu)⟩
  rw [List.reverse_eq_nil_iff.mp hnil] at hne
  cases hne

end Text

namespace Diagnostic

open Text (atPlace atPlace_ne_nil reverse_atPlace)

variable {before line column t : Text}

/-- A place behind a text is told from its end: the column first, then the line. -/
theorem withoutPlace_append (hline : line.IsRun CodeUnit.isDigit)
    (hcolumn : column.IsRun CodeUnit.isDigit) : withoutPlace (before ++ atPlace line column) = before := by
  have hcolon : CodeUnit.isDigit 0x3A = false := by decide
  have hspace : CodeUnit.isDigit 0x20 = false := by decide
  simp only [withoutPlace, reverse_atPlace, hcolumn.span_reverse hcolon, hline.span_reverse hspace,
    hline.isEmpty_reverse, hcolumn.isEmpty_reverse, Bool.or_self, Bool.false_eq_true, if_false,
    List.reverse_reverse]

/-- What is left out of a text is a place at its end. -/
theorem withoutPlace_eq_or (t : Text) : withoutPlace t = t ∨
    ∃ line column : Text, line.IsRun CodeUnit.isDigit ∧ column.IsRun CodeUnit.isDigit ∧
      t = withoutPlace t ++ atPlace line column := by
  unfold withoutPlace
  -- from the end: the column, a colon, the line and then ` at `
  obtain ⟨hsplit, hcolumn⟩ := Text.eq_append_span CodeUnit.isDigit t.reverse
  dsimp only
  split
  · next back hback =>
    obtain ⟨hsplit', hline⟩ := Text.eq_append_span CodeUnit.isDigit back
    split
    · next rest hrest =>
      split
      · exact .inl rfl
      · next hruns =>
        rw [Bool.or_eq_true, not_or, Bool.not_eq_true, Bool.not_eq_true] at hruns
        refine .inr ⟨_, _, Text.isRun_reverse hruns.2 hline, Text.isRun_reverse hruns.1 hcolumn, ?_⟩
        rw [hback, hsplit', hrest] at hsplit
        apply List.reverse_inj.mp
        rw [reverse_atPlace, List.reverse_reverse, List.reverse_reverse, List.reverse_reverse]
        exact hsplit
    · exact .inl rfl
  · exact .inl rfl

theorem withoutPlace_eq_iff : withoutPlace t = t ↔ ¬t.EndsInPlace := by
  constructor
  · rintro h ⟨before, line, column, hline, hcolumn, rfl⟩
    rw [withoutPlace_append hline hcolumn] at h
    exact atPlace_ne_nil line column (List.append_right_eq_self.mp h.symm)
  · intro h
    refine (withoutPlace_eq_or t).resolve_right ?_
    rintro ⟨line, column, hline, hcolumn, ht⟩
    exact h ⟨_, line, column, hline, hcolumn, ht⟩

/-! ### Data -/

variable {d : Diagnostic}

theorem text_of_location {l : Location} (h : d.location = some l) :
    d.text = d.message ++ atPlace (Text.ofNat l.line) (Text.ofNat l.column) := by
  have hplace : Diagnostic.place (some l) = atPlace (Text.ofNat l.line) (Text.ofNat l.column) := by
    simp only [Diagnostic.place, Location.format, Location.lineColumn, atPlace, List.append_assoc]
    rfl
  rw [text, h, hplace]

/-- The message comes back where a location was written behind it. -/
theorem data_of_location {l : Location} (h : d.location = some l) : d.data = d := by
  have hmessage : withoutPlace d.text = d.message := by
    rw [text_of_location h]
    exact withoutPlace_append (Text.isRun_ofNat _) (Text.isRun_ofNat _)
  rw [data, hmessage]

/-- Where there is no location, what the message itself ends with is taken for one. -/
theorem data_of_no_location (h : d.location = none) :
    d.data = { d with message := withoutPlace d.message } := by
  have htext : d.text = d.message := by
    rw [text, h]
    exact List.append_nil _
  rw [data, htext]

theorem data_eq_self_iff : d.data = d ↔ (d.location = none → ¬d.message.EndsInPlace) := by
  cases hlocation : d.location with
  | some l =>
    constructor
    · intro _ hnone
      cases hnone
    · exact fun _ => data_of_location hlocation
  | none =>
    rw [data_of_no_location hlocation, ← withoutPlace_eq_iff]
    constructor
    · intro h _
      exact congrArg Diagnostic.message h
    · intro h
      rw [h rfl]

end Diagnostic

/-! ### Complaints -/

/-- A complaint about a place, as it is before the grammar raises it. -/
def Complaint.diagnostic (c : Complaint) (l : Location) : Diagnostic :=
  ⟨c.code, c.message, some l, some c.arguments⟩

/-- What is raised for a complaint is the data of its diagnostic. -/
theorem Complaint.diagnostic_error (c : Complaint) (l : Location) (scope : Scope) :
    (c.error l scope).diagnostic = (c.diagnostic l).data :=
  (Diagnostic.data_of_location rfl).symm

/-! ### Files that cannot be read -/

/-- No place starts before a space that a colon stands in front of. -/
theorem Text.endsInPlace_colon_iff {s t : Text} :
    EndsInPlace (s ++ ((": " : Text) ++ t)) ↔ EndsInPlace ((" " : Text) ++ t) := by
  have hcolon : s ++ ((": " : Text) ++ t) = (s ++ [0x3A]) ++ (0x20 :: t) := by
    rw [List.append_assoc]
    rfl
  have hspace : (" " : Text) ++ t = 0x20 :: t := rfl
  rw [hcolon, hspace]
  constructor
  · rintro ⟨before, line, column, hline, hcolumn, h⟩
    rcases List.append_eq_append_iff.mp h with ⟨a, hbefore, ht⟩ | ⟨a, hs, hplace⟩
    · exact ⟨a, line, column, hline, hcolumn, ht⟩
    · cases a using List.reverseRecOn with
      | nil => exact ⟨[], line, column, hline, hcolumn, hplace.symm⟩
      | append_singleton a u =>
        -- the colon would be the one of the place, but a digit follows that one
        obtain rfl : 0x3A = u := by
          have hlast := congrArg List.getLast? hs
          simpa using hlast
        have hnot : ∀ {digits : Text}, digits.IsRun CodeUnit.isDigit → 0x3A ∉ digits :=
          fun hdigits hmem => absurd (hdigits.2 _ hmem) (by decide)
        have hnot' : 0x3A ∉ (" at " : Text) ++ line := by
          rw [List.mem_append, not_or]
          exact ⟨by decide, hnot hline⟩
        have hsplit : ((" at " : Text) ++ line) ++ 0x3A :: column = a ++ 0x3A :: (0x20 :: t) :=
          calc ((" at " : Text) ++ line) ++ 0x3A :: column
            _ = atPlace line column := (List.append_assoc _ (":" : Text) column).symm
            _ = (a ++ [0x3A]) ++ (0x20 :: t) := hplace
            _ = a ++ 0x3A :: (0x20 :: t) := List.append_assoc ..
        obtain ⟨-, -, rfl⟩ := (List.append_cons_inj_of_notMem hnot' (hnot hcolumn)).mp hsplit
        exact absurd (hcolumn.2 _ List.mem_cons_self) (by decide)
  · rintro ⟨before, line, column, hline, hcolumn, h⟩
    exact ⟨s ++ [0x3A] ++ before, line, column, hline, hcolumn, by rw [h, List.append_assoc _ before]⟩

namespace Batch

variable {files : Files} {options : Options} {root path reason : Text} {paths : List Text}

/-- What is said of a file that cannot be read. -/
def unreadableText (path reason : Text) : Text :=
  "Error: Cannot read " ++ path ++ (": " ++ reason)

/-- What is said of a file that cannot be read is reported, up to a place at its end. -/
theorem detailOf_unreadable (path reason : Text) :
    Report.detailOf (unreadable path reason)
      = Diagnostic.withoutPlace (unreadableText path reason) := by
  have hmessage : Code.internalError.message [("message", .text ("Cannot read " ++ path ++ ": " ++ reason))]
      = unreadableText path reason := by
    show ("Error: " : Text) ++ ((("Cannot read " : Text) ++ path ++ (": " : Text) ++ reason) ++ []) = _
    rw [List.append_nil, List.append_assoc]
    rfl
  show (Diagnostic.data _).message = _
  rw [Diagnostic.data_of_no_location rfl]
  exact congrArg Diagnostic.withoutPlace hmessage

theorem detail_unreadable (h : files.read path = .error reason) :
    (reportAt files options path).detail
      = some (Diagnostic.withoutPlace (unreadableText path reason)) := by
  unfold Report.detail reportAt scriptAt
  rw [h, ← detailOf_unreadable]

/-- The reason alone decides whether all of it is reported. -/
theorem detail_unreadable_iff (h : files.read path = .error reason) :
    (reportAt files options path).detail = some (unreadableText path reason)
      ↔ ¬Text.EndsInPlace (" " ++ reason) := by
  rw [detail_unreadable h, Option.some_inj, Diagnostic.withoutPlace_eq_iff, unreadableText,
    Text.endsInPlace_colon_iff]

/-- A run over a directory reports on each path of its listing. -/
theorem fst_run_runDirectory (h : files.list root options.extension = .ok paths) (before : Transcript) :
    ((runDirectory files.host root options).run before).1
      = .ok (paths.map (reportAt files options)) := by
  have hrun : (runDirectory files.host root options).run before
      = (runAll files.host options paths).run before := by
    unfold runDirectory
    simp only [Files.host, pure_bind, h]
  rw [hrun, run_runAll]

end Batch

/--
The data of a diagnostic is the diagnostic itself, whatever its code, its message, its location and its
arguments, unless there is no location and the message ends in a place; then that place is missing. So
what is raised for a complaint has the message of the complaint, and the line about a file that cannot
be read has the reason, unless the reason, or the end of it, is a place.
-/
theorem Diagnostic.data_eq_iff (d : Diagnostic) (files : Files) (options : Batch.Options) (root : Text)
    (before : Transcript) :
    (d.data = d ↔ (d.location = none → ¬d.message.EndsInPlace)) ∧
    (∀ rest line column : Text, d.location = none → line.IsRun CodeUnit.isDigit →
      column.IsRun CodeUnit.isDigit → d.message = rest ++ Text.atPlace line column →
        d.data = { d with message := rest }) ∧
    (∀ {α : Type} (reader : Reader α) (scope : Scope) (cursor : Cursor) (journal : Journal)
        (complaint : Complaint) (location : Location),
      cursor.read reader = .error (complaint, location) → ∃ e,
        Parser.read reader scope cursor journal = .failed (.parse e) (.raised e :: journal) ∧
        e.diagnostic = (complaint.diagnostic location).data ∧ e.message = complaint.message) ∧
    ∀ paths, files.list root options.extension = .ok paths → ∃ reports : List Batch.Report,
      ((Batch.runDirectory files.host root options).run before).1 = .ok reports ∧
      reports.map Batch.Report.path = paths ∧
      ∀ report ∈ reports, ∀ reason, files.read report.path = .error reason →
        report.detail = some (withoutPlace (Batch.unreadableText report.path reason)) ∧
        (report.detail = some (Batch.unreadableText report.path reason)
          ↔ ¬Text.EndsInPlace (" " ++ reason)) := by
  -- the two callers follow: an error of the parser has a location, an unreadable script has none
  refine ⟨data_eq_self_iff, ?_, ?_, ?_⟩
  · intro rest line column hnone hline hcolumn hmessage
    rw [data_of_no_location hnone, hmessage, withoutPlace_append hline hcolumn]
  · intro α reader scope cursor journal complaint location hread
    refine ⟨complaint.error location scope, ?_, complaint.diagnostic_error location scope, rfl⟩
    unfold Parser.read
    rw [hread]
  · intro paths hlist
    refine ⟨paths.map (Batch.reportAt files options), Batch.fst_run_runDirectory hlist before, ?_, ?_⟩
    · rw [List.map_map]
      exact List.map_id paths
    · intro report hreport reason hread
      obtain ⟨path, -, rfl⟩ := List.mem_map.mp hreport
      exact ⟨Batch.detail_unreadable hread, Batch.detail_unreadable_iff hread⟩

/-- A directory with one file, which cannot be read for a reason that is a place. -/
def Batch.lostFiles : Files where
  kind _ := .ok .directory
  list _ _ := .ok ["a.gd"]
  read _ := .error "at 5:7"

/-- A place at the end of a message comes back behind another one only. -/
theorem Diagnostic.data_eq_iff_read :
    data ⟨.unterminatedString, "read at 3:4", none, none⟩ = ⟨.unterminatedString, "read", none, none⟩ ∧
    data ⟨.unterminatedString, "read at 3:4", some .first, none⟩
      = ⟨.unterminatedString, "read at 3:4", some .first, none⟩ ∧
    (∃ e, Parser.read Reader.string ⟨[], 0, 8⟩ (.ofText "'a") [] = .failed (.parse e) [.raised e] ∧
      e.message = "Unterminated string literal") ∧
    ∃ reports : List Batch.Report,
      ((Batch.runDirectory Batch.lostFiles.host "d" .default).run .empty).1 = .ok reports ∧
      reports.map Batch.Report.path = (["a.gd"] : List Text) ∧
      ∀ report ∈ reports, report.detail = some "Error: Cannot read a.gd:" := by
  have hdigit : ∀ u : CodeUnit, u.isDigit = true → Text.IsRun CodeUnit.isDigit [u] := by
    intro u hu
    exact ⟨List.cons_ne_nil u [], fun v hv => List.mem_singleton.mp hv ▸ hu⟩
  obtain ⟨-, hrest, hread, hdirectory⟩ := data_eq_iff ⟨.unterminatedString, "read at 3:4", none, none⟩
    Batch.lostFiles .default "d" .empty
  -- without a location the place is taken off, with one it stays
  refine ⟨?_, ?_, ?_, ?_⟩
  · exact hrest "read" "3" "4" rfl (hdigit 0x33 (by decide)) (hdigit 0x34 (by decide)) (by rfl)
  · refine (data_eq_iff _ Batch.lostFiles .default "d" .empty).1.mpr fun hnone => ?_
    cases hnone
  · obtain ⟨e, he, -, hmessage⟩ := hread Reader.string ⟨[], 0, 8⟩ (.ofText "'a") []
      Reader.unterminatedString .first (by rfl)
    exact ⟨e, he, hmessage.trans (by rfl)⟩
  · obtain ⟨reports, hrun, hpaths, hdetails⟩ := hdirectory ["a.gd"] rfl
    refine ⟨reports, hrun, hpaths, fun report hreport => ?_⟩
    have hpath : report.path ∈ (["a.gd"] : List Text) := by
      rw [← hpaths]
      exact List.mem_map_of_mem hreport
    have hdetail := (hdetails report hreport _ rfl).1
    rw [List.mem_singleton.mp hpath] at hdetail
    exact hdetail

end GDScript
