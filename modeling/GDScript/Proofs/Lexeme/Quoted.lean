import GDScript.Proofs.Lexeme.Word
import GDScript.Reader.Quoted

/-!
# Strings and node paths

`Text.IsBody` is the language of the bodies of strings. A string whose body is in it is read back
from what it is written as, and every string that is read has such a body; the same goes for node
paths, which are written with names or with a string.
-/

namespace GDScript

namespace Text

/--
What may stand between two quotes: units other than the quote and the backslash, and backslashes
with a unit that can be escaped.
-/
inductive IsBody (quote : CodeUnit) : Text → Prop where
  | nil : IsBody quote []
  | unit {u : CodeUnit} {s : Text} (hquote : u ≠ quote) (hbackslash : u ≠ CodeUnit.backslash)
      (hs : IsBody quote s) : IsBody quote (u :: s)
  | escape {u : CodeUnit} {s : Text} (hu : escapable quote u = true) (hs : IsBody quote s) :
      IsBody quote (CodeUnit.backslash :: u :: s)

theorem scanBody_unit {quote u v : CodeUnit} {t : Text} (hquote : u ≠ quote)
    (hbackslash : u ≠ CodeUnit.backslash) :
    scanBody quote (u :: v :: t) = (scanBody quote (v :: t)).after [u] := by
  rw [scanBody, if_neg (by simpa using hquote), if_neg (by simpa using hbackslash)]

/-- The search for the end of a string finds a body that the quote follows. -/
theorem scanBody_append {quote : CodeUnit} {body rest : Text} (hquote : quote ≠ CodeUnit.backslash)
    (h : IsBody quote body) : scanBody quote (body ++ quote :: rest) = .closed body := by
  induction h with
  | nil => cases rest <;> simp [scanBody]
  | @unit u s hu hbackslash hs ih =>
    obtain ⟨v, t, ht⟩ : ∃ v t, s ++ quote :: rest = v :: t := by
      cases s with
      | nil => exact ⟨_, _, rfl⟩
      | cons v s => exact ⟨_, _, rfl⟩
    rw [List.cons_append, ht, scanBody_unit hu hbackslash, ← ht, ih]
    rfl
  | @escape u s hu hs ih =>
    rw [List.cons_append, List.cons_append, scanBody, if_neg (by simpa using hquote.symm),
      if_pos (by simp), if_pos hu, ih]
    rfl

/-- What stands before the text that is searched is put before what is found. -/
theorem scanBody_after {quote : CodeUnit} {body : Text} (hquote : quote ≠ CodeUnit.backslash)
    (h : IsBody quote body) (t : Text) :
    scanBody quote (body ++ t) = (scanBody quote t).after body := by
  have hafter : ∀ (scan : BodyScan) (s s' : Text), (scan.after s').after s = scan.after (s ++ s') := by
    intro scan s s'
    cases scan <;> simp [BodyScan.after, Nat.add_assoc]
  have hnil : ∀ scan : BodyScan, scan.after [] = scan := by
    intro scan
    cases scan <;> simp [BodyScan.after]
  -- along the body, one unit or one escape at a time
  induction h with
  | nil => exact (hnil _).symm
  | @unit u s hu hbackslash hs ih =>
    have hone : scanBody quote (u :: (s ++ t)) = (scanBody quote (s ++ t)).after [u] := by
      cases s ++ t with
      | nil => simp [scanBody, BodyScan.after, hu]
      | cons v rest => exact scanBody_unit hu hbackslash
    rw [List.cons_append, hone, ih, hafter]
    rfl
  | @escape u s hu hs ih =>
    rw [List.cons_append, List.cons_append, scanBody, if_neg (by simpa using hquote.symm),
      if_pos (by simp), if_pos hu, ih, hafter]
    rfl

/-- What a body cannot go on with, behind an opening quote. -/
inductive StopsBody (quote : CodeUnit) : Text → Prop where
  | ended : StopsBody quote []
  | backslash : StopsBody quote [CodeUnit.backslash]
  | closed (rest : Text) : StopsBody quote (quote :: rest)
  | badEscape {u : CodeUnit} (hu : escapable quote u = false) (rest : Text) :
    StopsBody quote (CodeUnit.backslash :: u :: rest)

/-- Every text starts with a body, which the rest does not go on with. -/
theorem exists_isBody (quote : CodeUnit) (t : Text) :
    ∃ body rest, t = body ++ rest ∧ IsBody quote body ∧ StopsBody quote rest := by
  -- by the cases of the scan, so a backslash is met together with the unit behind it
  induction t using scanBody.induct quote with
  | case1 => exact ⟨[], [], rfl, .nil, .ended⟩
  | case2 u hu =>
    obtain rfl : u = quote := by simpa using hu
    exact ⟨[], [u], rfl, .nil, .closed []⟩
  | case3 u hu =>
    have hne : u ≠ quote := by simpa using hu
    by_cases hbackslash : u = CodeUnit.backslash
    · exact ⟨[], [u], rfl, .nil, hbackslash ▸ .backslash⟩
    · exact ⟨[u], [], rfl, .unit hne hbackslash .nil, .ended⟩
  | case4 u v rest hu =>
    obtain rfl : u = quote := by simpa using hu
    exact ⟨[], u :: v :: rest, rfl, .nil, .closed _⟩
  | case5 u v rest hu hbackslash hv ih =>
    obtain rfl : u = CodeUnit.backslash := by simpa using hbackslash
    obtain ⟨body, rest, rfl, hbody, hstop⟩ := ih
    exact ⟨CodeUnit.backslash :: v :: body, rest, rfl, .escape hv hbody, hstop⟩
  | case6 u v rest hu hbackslash hv =>
    obtain rfl : u = CodeUnit.backslash := by simpa using hbackslash
    exact ⟨[], CodeUnit.backslash :: v :: rest, rfl, .nil, .badEscape (Bool.eq_false_iff.mpr hv) rest⟩
  | case7 u v rest hu hbackslash ih =>
    obtain ⟨body, rest', hrest, hbody, hstop⟩ := ih
    refine ⟨u :: body, rest', ?_, .unit (by simpa using hu) (by simpa using hbackslash) hbody, hstop⟩
    rw [hrest, List.cons_append]

theorem closed_of_after {read body : Text} {scan : BodyScan} (h : scan.after read = .closed body) :
    ∃ body', scan = .closed body' ∧ body = read ++ body' := by
  cases scan with
  | closed body' => exact ⟨body', rfl, (BodyScan.closed.inj h).symm⟩
  | unterminated => exact absurd h (by simp [BodyScan.after])
  | badEscape distance escaped => exact absurd h (by simp [BodyScan.after])

/-- The body that a search finds is ahead, with the quote behind it. -/
theorem isBody_of_scanBody {quote : CodeUnit} {t body : Text} (h : scanBody quote t = .closed body) :
    IsBody quote body ∧ ∃ rest, t = body ++ quote :: rest := by
  -- along the search: a closing quote ends the body, an escape makes it longer by two units
  induction t using scanBody.induct quote generalizing body with
  | case1 => exact absurd h (by simp [scanBody])
  | case2 u hu =>
    rw [scanBody, if_pos hu] at h
    obtain rfl := BodyScan.closed.inj h
    exact ⟨.nil, [], by simpa using hu⟩
  | case3 u hu =>
    rw [scanBody, if_neg hu] at h
    exact absurd h (by simp)
  | case4 u v rest hu =>
    rw [scanBody, if_pos hu] at h
    obtain rfl := BodyScan.closed.inj h
    exact ⟨.nil, v :: rest, by simpa using hu⟩
  | case5 u v rest hu hbackslash hv ih =>
    rw [scanBody, if_neg hu, if_pos hbackslash, if_pos hv] at h
    obtain ⟨body', hscan, rfl⟩ := closed_of_after h
    obtain ⟨hbody, rest', rfl⟩ := ih hscan
    obtain rfl : u = CodeUnit.backslash := by simpa using hbackslash
    exact ⟨.escape hv hbody, rest', rfl⟩
  | case6 u v rest hu hbackslash hv =>
    rw [scanBody, if_neg hu, if_pos hbackslash, if_neg hv] at h
    exact absurd h (by simp)
  | case7 u v rest hu hbackslash ih =>
    rw [scanBody, if_neg hu, if_neg hbackslash] at h
    obtain ⟨body', hscan, rfl⟩ := closed_of_after h
    obtain ⟨hbody, rest', hrest⟩ := ih hscan
    rw [hrest]
    exact ⟨.unit (by simpa using hu) (by simpa using hbackslash) hbody, rest', rfl⟩

end Text

/-! ### Strings -/

theorem Quote.unit_ne_backslash (q : Quote) : q.unit ≠ CodeUnit.backslash := by
  cases q <;> decide

theorem Quote.unit_of_ofUnit? {u : CodeUnit} {q : Quote} (h : ofUnit? u = some q) : q.unit = u := by
  unfold ofUnit? at h
  split at h
  · next hu =>
    obtain rfl := Option.some.inj h
    exact (beq_iff_eq.mp hu).symm
  · split at h
    · next hu =>
      obtain rfl := Option.some.inj h
      exact (beq_iff_eq.mp hu).symm
    · exact absurd h (by simp)

/-- The body of a string may stand between its quotes. -/
def StringLiteral.IsValid (s : StringLiteral) : Prop := s.body.IsBody s.quote.unit

namespace Reader

theorem string_append {literal : StringLiteral} (h : literal.IsValid) (rest : Text) :
    string (literal.write ++ rest) = .took (some literal) literal.write.length := by
  have hscan : Text.scanBody literal.quote.unit (literal.body ++ literal.quote.unit :: rest)
      = .closed literal.body := Text.scanBody_append literal.quote.unit_ne_backslash h
  have hwrite : literal.write ++ rest
      = literal.quote.unit :: (literal.body ++ literal.quote.unit :: rest) := by
    simp [StringLiteral.write]
  rw [hwrite, string, Quote.ofUnit?_unit]
  simp [hscan, StringLiteral.write]

/-! What is read of a string, by what its body cannot go on with. -/

section Stops

variable {quote : Quote} {body : Text} (h : body.IsBody quote.unit)

include h

theorem string_closed (rest : Text) :
    string (quote.unit :: (body ++ quote.unit :: rest)) = .took (some ⟨body, quote⟩) (body.length + 2) := by
  have hscan : Text.scanBody quote.unit (body ++ quote.unit :: rest) = .closed body :=
    Text.scanBody_append quote.unit_ne_backslash h
  rw [string, Quote.ofUnit?_unit]
  simp [hscan]

theorem string_unterminated {rest : Text} (hrest : rest = [] ∨ rest = [CodeUnit.backslash]) :
    string (quote.unit :: (body ++ rest)) = .fault unterminatedString := by
  have hopen : Text.scanBody quote.unit rest = .unterminated := by
    rcases hrest with rfl | rfl
    · rfl
    · cases quote <;> rfl
  rw [string, Quote.ofUnit?_unit, Text.scanBody_after quote.unit_ne_backslash h, hopen]
  rfl

theorem string_badEscape {u : CodeUnit} (hu : Text.escapable quote.unit u = false) (rest : Text) :
    string (quote.unit :: (body ++ CodeUnit.backslash :: u :: rest))
      = .fault (invalidEscape (body.length + 1) u) := by
  have hbad : Text.scanBody quote.unit (CodeUnit.backslash :: u :: rest) = .badEscape 0 u := by
    have hne : ¬ (CodeUnit.backslash == quote.unit) = true := by cases quote <;> decide
    rw [Text.scanBody, if_neg hne, if_pos (beq_self_eq_true _), hu, if_neg Bool.false_ne_true]
  rw [string, Quote.ofUnit?_unit, Text.scanBody_after quote.unit_ne_backslash h, hbad]
  rfl

end Stops

/-- Where a quote is ahead, so is a string, up to what its body cannot go on with. -/
theorem exists_string {t : Text} (h : ¬ t.Avoids CodeUnit.isQuote) :
    ∃ (quote : Quote) (body rest : Text), t = quote.unit :: (body ++ rest) ∧
      body.IsBody quote.unit ∧ rest.StopsBody quote.unit := by
  obtain ⟨quote, s, rfl⟩ : ∃ (quote : Quote) (s : Text), t = quote.unit :: s := by
    cases t with
    | nil => exact absurd rfl h
    | cons u t =>
      rw [Text.avoids_cons, Bool.not_eq_false, CodeUnit.isQuote, Bool.or_eq_true, beq_iff_eq,
        beq_iff_eq] at h
      rcases h with rfl | rfl
      · exact ⟨.double, t, rfl⟩
      · exact ⟨.single, t, rfl⟩
  obtain ⟨body, rest, rfl, hbody, hstop⟩ := Text.exists_isBody quote.unit s
  exact ⟨quote, body, rest, rfl, hbody, hstop⟩

theorem isValid_of_string {literal : StringLiteral} {t : Text} {length : Nat}
    (h : string t = .took (some literal) length) :
    literal.IsValid ∧ (∃ rest, t = literal.write ++ rest) ∧ length = literal.write.length := by
  cases t with
  | nil => exact absurd h (by simp [string])
  | cons u t =>
    rw [string] at h
    split at h
    · exact absurd h (by simp)
    · next quote hquote =>
      obtain rfl := Quote.unit_of_ofUnit? hquote
      split at h
      · -- the scan was closed, so the body is the one between the quotes
        next body hscan =>
        simp only [Reading.took.injEq, Option.some.injEq] at h
        obtain ⟨rfl, rfl⟩ := h
        obtain ⟨hbody, rest, rfl⟩ := Text.isBody_of_scanBody hscan
        exact ⟨hbody, ⟨rest, by simp [StringLiteral.write]⟩, by simp [StringLiteral.write]⟩
      · exact absurd h (by simp)
      · exact absurd h (by simp)

/-- No string is ahead where no quote is. -/
theorem string_eq_none {t : Text} (h : t.Avoids CodeUnit.isQuote) : string t = .took none 0 := by
  cases t with
  | nil => rfl
  | cons u t =>
    rw [Text.avoids_cons, CodeUnit.isQuote, Bool.or_eq_false_iff] at h
    rw [string, Quote.ofUnit?, h.1, h.2]
    rfl

end Reader

/-! ### Node paths -/

/-- `$` and names with slashes between them, or `$` and a string. -/
inductive Text.IsNodePath : Text → Prop where
  | names {s : Text} (h : s.IsChain CodeUnit.slash) : IsNodePath (CodeUnit.dollar :: s)
  | quoted {literal : StringLiteral} (h : literal.IsValid) :
      IsNodePath (CodeUnit.dollar :: literal.write)

theorem CodeUnit.isQuote_eq_false_of_isIdentifierStart {u : CodeUnit}
    (h : u.isIdentifierStart = true) : u.isQuote = false := by
  rw [← Bool.not_eq_true]
  intro hu
  simp only [isQuote, Bool.or_eq_true, beq_iff_eq] at hu
  rcases hu with rfl | rfl <;> exact absurd h (by decide)

theorem Text.avoids_isQuote_of_startsName {t : Text} (h : t.startsName = true) :
    t.Avoids CodeUnit.isQuote := by
  cases t with
  | nil => rfl
  | cons u t => exact CodeUnit.isQuote_eq_false_of_isIdentifierStart h

namespace Reader

theorem nodePath_append {path rest : Text} (h : path.IsNodePath)
    (hrest : rest.EndsChain CodeUnit.slash) :
    nodePath (path ++ rest) = .took (some path) path.length := by
  cases h with
  | @names s h =>
    have hquote : string (s ++ rest) = .took none 0 :=
      string_eq_none (Text.avoids_isQuote_of_startsName (Text.startsName_append h.startsName))
    simp [nodePath, hquote, Text.chain?_append h hrest]
  | @quoted literal h => simp [nodePath, string_append h]

theorem isNodePath_of_nodePath {path t : Text} {length : Nat}
    (h : nodePath t = .took (some path) length) : path.IsNodePath := by
  cases t with
  | nil => exact absurd h (by simp [nodePath])
  | cons u t =>
    rw [nodePath] at h
    split at h
    · next hu =>
      obtain rfl := beq_iff_eq.mp hu
      split at h
      · exact absurd h (by simp)
      · next literal length' hstring =>
        simp only [Reading.took.injEq, Option.some.injEq] at h
        obtain ⟨rfl, -⟩ := h
        exact .quoted (isValid_of_string hstring).1
      · -- a quoted path is tried first, then names with slashes between them
        split at h
        · next names hnames =>
          simp only [Reading.took.injEq, Option.some.injEq] at h
          obtain ⟨rfl, -⟩ := h
          exact .names (Text.isChain_of_chain? hnames).1
        · exact absurd h (by simp)
    · exact absurd h (by simp)

end Reader

end GDScript
