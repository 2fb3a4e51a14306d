import GDScript.Grammar.Expression
import GDScript.Proofs.Lexeme.Line
import GDScript.Proofs.Lexeme.Numeral
import GDScript.Proofs.Lexeme.Quoted
import GDScript.Proofs.Position

/-!
# What diagnostics say about a text

`Text.Shows` says for every code of the grammar what its arguments claim about the text around the
offset of the diagnostic. A reader is honest when its complaints claim nothing else than what is
there, wherever the reader is used (`Reader.IsHonest`). The readers of all tokens are; the one that
measures the body of a header is honest at the start and at the end of a line.
-/

namespace GDScript

/--
A numeral, and what follows it: decimal digits, or `0x` and hexadecimal digits, that no further
digit of their kind follows.
-/
inductive IntLiteral.IsLongest : IntLiteral → Text → Prop where
  | decimal {digits rest : Text} (h : digits.IsRun CodeUnit.isDigit)
      (hrest : rest.Avoids CodeUnit.isDigit) : IsLongest ⟨Text.value 10 digits, digits⟩ rest
  | hexadecimal {digits rest : Text} (h : digits.IsRun CodeUnit.isHexDigit)
      (hrest : rest.Avoids CodeUnit.isHexDigit) :
      IsLongest ⟨Text.value 16 digits, "0x" ++ digits⟩ rest

/-- What a diagnostic of the code, with the arguments, claims about the text at the offset. -/
inductive Text.Shows (source : Text) (offset : Nat) : Code → Arguments → Prop where
  /-- The unit that was found stands there, or the text ends there. -/
  | unexpectedInput {what : Text} (hoffset : offset ≤ source.length) :
      Shows source offset .unexpectedInput
        [("expected", .text what), ("found", .text (Text.describe source[offset]?))]
  /--
  A line is indented by just the spaces that were found, and these are other or not more than
  expected.
  -/
  | indentationMismatch {before rest relation : Text} {width found : Nat}
      (hsource : source = before ++ (List.replicate found CodeUnit.space ++ rest))
      (hbefore : before.IsLines) (hoffset : offset = before.length + found)
      (hrest : rest.head? ≠ some CodeUnit.space)
      (hwidth : relation = "of" ∧ found ≠ width ∨ relation = "greater than" ∧ found ≤ width) :
      Shows source offset .indentationMismatch
        [("relation", .text relation), ("expected", .integer width), ("found", .integer found)]
  /-- A quote stands there, and no body of a string with a closing quote follows it. -/
  | unterminatedString {before rest : Text} {quote : CodeUnit}
      (hsource : source = before ++ quote :: rest) (hoffset : offset = before.length)
      (hquote : quote.isQuote = true)
      (hopen : ∀ body after : Text, body.IsBody quote → rest ≠ body ++ quote :: after) :
      Shows source offset .unterminatedString []
  /-- In a string, a backslash stands there before a unit that cannot be escaped. -/
  | invalidEscape {before body after : Text} {quote escaped : CodeUnit}
      (hsource : source
        = before ++ quote :: (body ++ CodeUnit.backslash :: escaped :: after))
      (hquote : quote.isQuote = true) (hbody : body.IsBody quote)
      (hoffset : offset = before.length + 1 + body.length)
      (hescaped : escaped ≠ quote ∧ escaped ≠ CodeUnit.backslash ∧ escaped ≠ 0x6E) :
      Shows source offset .invalidEscape
        [("char", .text (if escaped.isLineEnd then "newline" else [escaped]))]
  /-- A numeral stands there that denotes more than a signed 64-bit integer can. -/
  | integerOutOfRange {before rest : Text} {literal : IntLiteral}
      (hsource : source = before ++ (literal.raw ++ rest)) (hoffset : offset = before.length)
      (hliteral : literal.IsLongest rest) (hvalue : 0x7FFFFFFFFFFFFFFF < literal.value) :
      Shows source offset .integerOutOfRange [("value", .text literal.raw)]
  /-- No claim about the text. -/
  | nestingTooDeep {limit : Int} :
      Shows source offset .nestingTooDeep [("maxDepth", .integer limit)]

/-- What the error claims is true: about the text, or for good about the depth limit. -/
structure ParseError.IsTrueOf (source : Text) (e : ParseError) : Prop where
  shows_ : ∃ arguments, e.arguments = some arguments ∧
    source.Shows e.location.offset e.code arguments
  recoverable_eq : e.code = .nestingTooDeep → e.recoverable = false

/-! ### Complaints -/

/-- What the complaint claims about a text is true, `n` units of which have been read. -/
structure Complaint.IsTrueOf (source : Text) (n : Nat) (complaint : Complaint) : Prop where
  /-- The complaint is about a place in the text. -/
  place : n + complaint.distance ≤ source.length
  shows_ : source.Shows (n + complaint.distance) complaint.code complaint.arguments
  /-- The complaint is not about the depth limit. -/
  code_ne : complaint.code ≠ .nestingTooDeep

/-- The error that a true complaint becomes is true. -/
theorem Complaint.IsTrueOf.error {source : Text} {c : Cursor} {complaint : Complaint}
    (h : complaint.IsTrueOf source c.location.offset) (hc : c.IsIn source) (scope : Scope) :
    (complaint.error (c.advanceBy complaint.distance).location scope).IsTrueOf source := by
  refine ⟨⟨complaint.arguments, rfl, ?_⟩, fun hcode => absurd hcode h.code_ne⟩
  have hplace := h.place
  -- the place of the complaint lies within what is ahead
  have hlength : complaint.distance ≤ c.ahead.length := by
    rw [hc.ahead_eq, List.length_drop]
    omega
  have hoffset : (c.advanceBy complaint.distance).location.offset
      = c.location.offset + complaint.distance := by
    rw [Cursor.offset_advanceBy, Nat.min_eq_left hlength]
  rw [Complaint.error, hoffset]
  exact h.shows_

/-- The unit that is ahead is not the expected one. -/
theorem Complaint.isTrueOf_unexpected (what before t : Text) :
    (Complaint.unexpected what t.head?).IsTrueOf (before ++ t) before.length := by
  have hplace : before.length ≤ (before ++ t).length := by simp
  have hfound : t.head? = (before ++ t)[before.length]? := by
    rw [List.getElem?_append_right (Nat.le_refl _), Nat.sub_self, List.head?_eq_getElem?]
  refine ⟨hplace, ?_, Code.noConfusion⟩
  rw [hfound]
  exact .unexpectedInput hplace

/-- A complaint about what follows some units is one about all of it, further on. -/
theorem Complaint.IsTrueOf.shift {source : Text} {n k : Nat} {complaint : Complaint}
    (h : complaint.IsTrueOf source (n + k)) : (complaint.shift k).IsTrueOf source n := by
  have hsum : n + (complaint.distance + k) = n + k + complaint.distance := by omega
  obtain ⟨hplace, hshows, hcode⟩ := h
  refine ⟨?_, ?_, hcode⟩
  · rw [Complaint.shift, hsum]
    exact hplace
  · rw [Complaint.shift, hsum]
    exact hshows

/-- A line that is found at the start of a line is indented as the complaint says. -/
theorem Complaint.isTrueOf_indentation {before passed line relation : Text} {width : Nat}
    (hbefore : Text.IsLines (before ++ passed))
    (hwidth : relation = "of" ∧ line.indentation ≠ width ∨
      relation = "greater than" ∧ line.indentation ≤ width) :
    (Complaint.indentation relation width line passed.length).IsTrueOf
      (before ++ (passed ++ line)) before.length := by
  -- the line splits into the spaces that its indentation counts, and what follows them
  have hspaces : line = List.replicate line.indentation CodeUnit.space
      ++ line.dropWhile (· == CodeUnit.space) := by
    have htake : line.takeWhile (· == CodeUnit.space)
        = List.replicate line.indentation CodeUnit.space :=
      List.eq_replicate_iff.mpr ⟨rfl, fun u hu => by simpa using Text.takeWhile_pos u hu⟩
    rw [← htake, List.takeWhile_append_dropWhile]
  have hlength : line.indentation ≤ line.length := (List.takeWhile_prefix _).length_le
  have hrest : (line.dropWhile (· == CodeUnit.space)).head? ≠ some CodeUnit.space := by
    intro hhead
    have havoids := Text.avoids_dropWhile (· == CodeUnit.space) line
    rw [Text.Avoids, hhead] at havoids
    exact absurd havoids (by decide)
  have hsource : before ++ (passed ++ line) = before ++ passed
      ++ (List.replicate line.indentation CodeUnit.space
        ++ line.dropWhile (· == CodeUnit.space)) := by
    rw [← hspaces, List.append_assoc]
  refine ⟨?_, .indentationMismatch hsource hbefore ?_ hrest hwidth, Code.noConfusion⟩
  · have hdistance : (Complaint.indentation relation width line passed.length).distance
        = passed.length + line.indentation := rfl
    rw [hdistance, List.length_append, List.length_append]
    omega
  · rw [List.length_append, Nat.add_assoc]
    rfl

/-! ### Strings and numbers -/

namespace Text

/-- What has been read before a bad escape only adds to its distance. -/
theorem badEscape_of_after {read : Text} {scan : BodyScan} {distance : Nat} {escaped : CodeUnit}
    (h : scan.after read = .badEscape distance escaped) :
    ∃ distance', scan = .badEscape distance' escaped ∧ distance = read.length + distance' := by
  cases scan with
  | badEscape distance' escaped' =>
    obtain ⟨rfl, rfl⟩ := BodyScan.badEscape.inj h
    exact ⟨distance', rfl, rfl⟩
  | closed body => exact absurd h (by simp [BodyScan.after])
  | unterminated => exact absurd h (by simp [BodyScan.after])

/-- The search stops where a backslash stands behind a body, before a unit that it cannot escape. -/
theorem isBody_of_scanBody_badEscape {quote escaped : CodeUnit} {t : Text} {distance : Nat}
    (h : scanBody quote t = .badEscape distance escaped) :
    ∃ body after : Text, t = body ++ CodeUnit.backslash :: escaped :: after ∧
      body.IsBody quote ∧ body.length = distance ∧ escapable quote escaped = false := by
  -- along the search itself; only a unit that is passed over or escaped makes the body longer
  induction t using scanBody.induct quote generalizing distance with
  | case1 => exact absurd h (by simp [scanBody])
  | case2 u hu =>
    rw [scanBody, if_pos hu] at h
    exact absurd h (by simp)
  | case3 u hu =>
    rw [scanBody, if_neg hu] at h
    exact absurd h (by simp)
  | case4 u v rest hu =>
    rw [scanBody, if_pos hu] at h
    exact absurd h (by simp)
  | case5 u v rest hu hbackslash hv ih =>
    rw [scanBody, if_neg hu, if_pos hbackslash, if_pos hv] at h
    obtain ⟨distance', hscan, rfl⟩ := badEscape_of_after h
    obtain ⟨body, after, rfl, hbody, rfl, hescaped⟩ := ih hscan
    obtain rfl : u = CodeUnit.backslash := by simpa using hbackslash
    exact ⟨_, after, rfl, .escape hv hbody, by simp; omega, hescaped⟩
  | case6 u v rest hu hbackslash hv =>
    rw [scanBody, if_neg hu, if_pos hbackslash, if_neg hv] at h
    obtain ⟨rfl, rfl⟩ := BodyScan.badEscape.inj h
    obtain rfl : u = CodeUnit.backslash := by simpa using hbackslash
    exact ⟨[], rest, rfl, .nil, rfl, by simpa using hv⟩
  | case7 u v rest hu hbackslash ih =>
    rw [scanBody, if_neg hu, if_neg hbackslash] at h
    obtain ⟨distance', hscan, rfl⟩ := badEscape_of_after h
    obtain ⟨body, after, hrest, hbody, rfl, hescaped⟩ := ih hscan
    rw [hrest]
    exact ⟨u :: body, after, rfl, .unit (by simpa using hu) (by simpa using hbackslash) hbody,
      by simp [Nat.add_comm], hescaped⟩

/-- The numeral that is ahead is the longest one. -/
theorem isLongest_of_intLiteral? {literal : IntLiteral} {t : Text}
    (h : intLiteral? t = some literal) :
    ∃ rest, t = literal.raw ++ rest ∧ literal.IsLongest rest := by
  obtain ⟨digits, rest, hsplit, ⟨hrun, hrest, rfl⟩ | ⟨hrun, hrest, rfl⟩⟩ := exists_of_intLiteral? h
  · exact ⟨rest, hsplit, .decimal hrun hrest⟩
  · exact ⟨rest, hsplit, .hexadecimal hrun hrest⟩

end Text

theorem Quote.isQuote_unit (q : Quote) : q.unit.isQuote = true := by
  cases q <;> rfl

/-! ### Readers -/

namespace Reader

variable {α : Type}

/-- The reader finds nothing wrong with any text. -/
def IsSilent (reader : Reader α) : Prop := ∀ t complaint, reader t ≠ .fault complaint

@[simp] theorem isSilent_look (f : Text → α) : (look f).IsSilent :=
  fun _ _ => by simp [look]

@[simp] theorem isSilent_skip (length : Text → Nat) : (skip length).IsSilent :=
  fun _ _ => by simp [skip]

/-- A reader that may find nothing has nothing to complain about. -/
@[simp] theorem isSilent_lexeme (find : Text → Option Text) : (lexeme find).IsSilent :=
  fun t complaint => by rw [lexeme]; split <;> simp

/-- Neither has one that takes its units under a condition. -/
@[simp] theorem isSilent_takeIf (length : Nat) (condition : Text → Bool) :
    (takeIf length condition).IsSilent :=
  fun t complaint => by rw [takeIf]; split <;> simp

@[simp] theorem isSilent_consume (text : Text) : (consume text).IsSilent :=
  isSilent_takeIf _ _

@[simp] theorem isSilent_keyword (word : Text) : (keyword word).IsSilent :=
  isSilent_takeIf _ _

@[simp] theorem isSilent_oneOf (word : α → Text) (choices : List α) :
    (oneOf word choices).IsSilent :=
  fun t complaint => by rw [oneOf]; split <;> simp

/-- Operators, like modifiers and constants, are looked up in a table. -/
@[simp] theorem isSilent_operator {Op : Type} (table : List (Spelling Op)) :
    (operator table).IsSilent :=
  fun t complaint => by rw [operator]; split <;> simp

@[simp] theorem isSilent_float : float.IsSilent :=
  fun t complaint => by rw [float]; split <;> simp

@[simp] theorem isSilent_comment : comment.IsSilent :=
  fun t complaint => by rw [comment]; split <;> simp

@[simp] theorem isSilent_lineBreak : lineBreak.IsSilent :=
  fun t complaint => by simp [lineBreak]

/-- The search for a line only tells whether there is one. -/
@[simp] theorem isSilent_seekLine (width : Nat) (accept : Text → Bool) :
    (seekLine width accept).IsSilent :=
  fun t complaint => by simp only [seekLine]; split <;> simp

@[simp] theorem isSilent_identifier : identifier.IsSilent := isSilent_lexeme _

@[simp] theorem isSilent_dottedIdentifier : dottedIdentifier.IsSilent := isSilent_lexeme _

@[simp] theorem isSilent_skipSpaces : skipSpaces.IsSilent := isSilent_skip _

@[simp] theorem isSilent_skipLayout : skipLayout.IsSilent := isSilent_skip _

@[simp] theorem isSilent_atLineEnd : atLineEnd.IsSilent := isSilent_look _

@[simp] theorem isSilent_constant : Expression.constant.IsSilent :=
  fun t complaint => by rw [Expression.constant]; split <;> simp

/-- Wherever the reader is used, its complaints are true. -/
def IsHonest (reader : Reader α) : Prop :=
  ∀ before t complaint, reader t = .fault complaint →
    complaint.IsTrueOf (before ++ t) before.length

/-- Who says nothing tells no lies. -/
@[simp] theorem IsSilent.isHonest {reader : Reader α} (h : reader.IsSilent) : reader.IsHonest :=
  fun _ t complaint hread => absurd hread (h t complaint)

/-- What is missing is told with what stands there instead. -/
@[simp] theorem isHonest_expected (what : Text) : (expected what : Reader α).IsHonest := by
  intro before t complaint hread
  rw [← Reading.fault.inj hread]
  exact Complaint.isTrueOf_unexpected what before t

/-- A sign is complained about where another unit stands. -/
@[simp] theorem isHonest_expect (text : Text) : (expect text).IsHonest := by
  intro before t complaint hread
  rw [expect] at hread
  split at hread
  · exact absurd hread (by simp)
  · rw [← Reading.fault.inj hread]
    exact Complaint.isTrueOf_unexpected _ before t

/-- So is a word. -/
@[simp] theorem isHonest_expectKeyword (word : Text) : (expectKeyword word).IsHonest := by
  intro before t complaint hread
  rw [expectKeyword] at hread
  split at hread
  · exact absurd hread (by simp)
  · rw [← Reading.fault.inj hread]
    exact Complaint.isTrueOf_unexpected _ before t

/-- A numeral is complained about when it denotes too much. -/
@[simp] theorem isHonest_int : int.IsHonest := by
  intro before t complaint hread
  rw [int] at hread
  split at hread
  · exact absurd hread (by simp)
  · next literal hliteral =>
    split at hread
    · exact absurd hread (by simp)
    · next hvalue =>
      obtain ⟨rest, rfl, hlongest⟩ := Text.isLongest_of_intLiteral? hliteral
      rw [← Reading.fault.inj hread]
      refine ⟨by simp, .integerOutOfRange rfl rfl hlongest ?_, Code.noConfusion⟩
      have hgreatest : greatestInt = 0x7FFFFFFFFFFFFFFF := rfl
      omega

/-- A string is complained about when it has no end or escapes what it cannot. -/
@[simp] theorem isHonest_string : string.IsHonest := by
  intro before t complaint hread
  cases t with
  | nil => exact absurd hread (by simp [string])
  | cons u t =>
    rw [string] at hread
    split at hread
    · exact absurd hread (by simp)
    · next quote hquote =>
      obtain rfl := Quote.unit_of_ofUnit? hquote
      split at hread
      · exact absurd hread (by simp)
      · next hscan =>
        rw [← Reading.fault.inj hread]
        refine ⟨by simp [unterminatedString], ?_, Code.noConfusion⟩
        refine .unterminatedString rfl rfl quote.isQuote_unit fun body after hbody hrest => ?_
        -- a body with its closing quote would have been found
        rw [hrest, Text.scanBody_append quote.unit_ne_backslash hbody] at hscan
        exact absurd hscan (by simp)
      · next distance escaped hscan =>
        obtain ⟨body, after, rfl, hbody, rfl, hescaped⟩ :=
          Text.isBody_of_scanBody_badEscape hscan
        rw [← Reading.fault.inj hread]
        refine ⟨by simp [invalidEscape], ?_, Code.noConfusion⟩
        -- the unit is shown as it is, unless it ends a line
        have hshown : (if escaped.isLineEnd then Text.describe (some escaped) else [escaped])
            = if escaped.isLineEnd then ("newline" : Text) else [escaped] := by
          split
          · next hend => rw [Text.describe, if_pos hend]
          · rfl
        rw [invalidEscape, hshown]
        refine .invalidEscape rfl quote.isQuote_unit hbody (by simp; omega) ?_
        simpa [Text.escapable, and_assoc] using hescaped

/-- The path of a node may be quoted, with the complaints of a string. -/
@[simp] theorem isHonest_nodePath : nodePath.IsHonest := by
  intro before t complaint hread
  cases t with
  | nil => exact absurd hread (by simp [nodePath])
  | cons u t =>
    rw [nodePath] at hread
    split at hread
    · split at hread
      · next complaint' hstring =>
        rw [← Reading.fault.inj hread]
        refine Complaint.IsTrueOf.shift ?_
        -- the string stands behind the sign of the path
        have hhonest := isHonest_string (before ++ [u]) t complaint' hstring
        rwa [List.append_assoc, List.length_append] at hhonest
      · exact absurd hread (by simp)
      · split at hread <;> exact absurd hread (by simp)
    · exact absurd hread (by simp)

/-- The body of a header is measured truly from the start or the end of a line on. -/
theorem isTrueOf_bodyIndent {header : Nat} {before t : Text} {complaint : Complaint}
    (h : before.IsLines ∨ t.atLineEnd = true) (hread : bodyIndent header t = .fault complaint) :
    complaint.IsTrueOf (before ++ t) before.length := by
  have hsplit : t.take t.emptyLinesLength ++ t.nextCode = t := List.take_append_drop _ t
  have hlength : (t.take t.emptyLinesLength).length = t.emptyLinesLength :=
    List.length_take_of_le (Text.droppedLength_le _ _ t)
  rw [bodyIndent] at hread
  change (if t.nextCode.isEmpty then _ else if header < t.nextCode.indentation then _ else _) = _
    at hread
  split at hread
  · next hend =>
    rw [← Reading.fault.inj hread]
    refine Complaint.IsTrueOf.shift ?_
    -- behind the empty lines the text ends
    rw [List.isEmpty_iff.mp hend, List.append_nil] at hsplit
    have htrue := Complaint.isTrueOf_unexpected "indented block"
      (before ++ t.take t.emptyLinesLength) []
    rw [List.append_nil, List.length_append, hlength, hsplit] at htrue
    exact htrue
  · next hcode =>
    split at hread
    · exact absurd hread (by simp)
    · next hwidth =>
      rw [← Reading.fault.inj hread]
      -- the first line of code starts behind whole lines
      have hlines : Text.IsLines (before ++ t.take t.emptyLinesLength) :=
        (Text.isLines_of_dropped_of_atLineEnd
          (fun _ => Text.isEmptyLine_of_isBlankLine) h).resolve_left fun hnil =>
            hcode (List.isEmpty_iff.mpr hnil)
      have hmismatch : ("greater than" : Text) = "of" ∧ t.nextCode.indentation ≠ header ∨
          ("greater than" : Text) = "greater than" ∧ t.nextCode.indentation ≤ header :=
        .inr ⟨rfl, Nat.le_of_not_lt hwidth⟩
      have htrue := Complaint.isTrueOf_indentation hlines hmismatch
      rw [hsplit, hlength] at htrue
      exact htrue

end Reader

end GDScript
