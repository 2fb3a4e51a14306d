import GDScript.Proofs.Lexeme.Quoted

/-!
# Strings at a cursor

`Cursor.ReadsString` lists the ways in which a string can be read at a cursor: no quote is ahead, a
body and its closing quote are, a body goes on with a backslash before a unit that cannot be escaped,
or the input ends first. Each way is stated through the language of bodies, `Text.IsBody`, and not
through the search for the closing quote. Exactly one outcome is left by them at every cursor, and it
is that of the reader (`Cursor.readsString_iff`); so the body of a string is told from what is ahead
(`Text.IsBody.eq_of_append_eq`).
-/

namespace GDScript

/-- Before which units a backslash may not stand. -/
theorem Text.escapable_eq_false_iff {quote u : CodeUnit} :
    escapable quote u = false ↔ u ≠ quote ∧ u ≠ CodeUnit.backslash ∧ u ≠ 0x6E := by
  unfold escapable
  simp [and_assoc]

/-- What a body ends with is decided by what is ahead: no text has two bodies with a quote behind. -/
theorem Text.IsBody.eq_of_append_eq {quote : Quote} {body body' after after' : Text}
    (hbody : body.IsBody quote.unit) (hbody' : body'.IsBody quote.unit)
    (h : body ++ quote.unit :: after = body' ++ quote.unit :: after') :
    body = body' ∧ after = after' := by
  have hscan : scanBody quote.unit (body ++ quote.unit :: after) = .closed body :=
    scanBody_append quote.unit_ne_backslash hbody
  have hscan' : scanBody quote.unit (body' ++ quote.unit :: after') = .closed body' :=
    scanBody_append quote.unit_ne_backslash hbody'
  rw [h, hscan'] at hscan
  obtain rfl := BodyScan.closed.inj hscan
  exact ⟨rfl, (List.cons.inj (List.append_cancel_left h)).2⟩

namespace Cursor

/-- What is read of a string at a cursor, and the cursor behind it, or what is wrong and where. -/
inductive ReadsString (c : Cursor) :
    Except (Complaint × Location) (Option StringLiteral × Cursor) → Prop where
  /-- No quote is ahead, and nothing is taken. -/
  | nothing (hquote : ∀ quote : Quote, c.ahead.head? ≠ some quote.unit) :
      ReadsString c (.ok (none, c))
  /-- The body is kept as it is written, and the cursor goes behind the closing quote. -/
  | literal {quote : Quote} {body after : Text}
      (hahead : c.ahead = quote.unit :: (body ++ quote.unit :: after))
      (hbody : body.IsBody quote.unit) :
      ReadsString c (.ok (some ⟨body, quote⟩, c.advanceBy (body.length + 2)))
  /-- The backslash is reported that stands before a unit that it cannot escape. -/
  | invalidEscape {quote : Quote} {body after : Text} {u : CodeUnit}
      (hahead : c.ahead = quote.unit :: (body ++ CodeUnit.backslash :: u :: after))
      (hbody : body.IsBody quote.unit)
      (hu : u ≠ quote.unit ∧ u ≠ CodeUnit.backslash ∧ u ≠ 0x6E) :
      ReadsString c (.error
        (⟨.invalidEscape, [("char", .text (if u.isLineEnd then "newline" else [u]))], [],
          body.length + 1⟩, (c.advanceBy (body.length + 1)).location))
  /-- The input ends within the string, perhaps behind a backslash; the opening quote is reported. -/
  | unterminated {quote : Quote} {body : Text}
      (hahead : c.ahead = quote.unit :: body ∨
        c.ahead = quote.unit :: (body ++ [CodeUnit.backslash]))
      (hbody : body.IsBody quote.unit) :
      ReadsString c (.error (⟨.unterminatedString, [], [], 0⟩, c.location))

variable {c : Cursor} {r : Except (Complaint × Location) (Option StringLiteral × Cursor)}

/-- What the reader does at a cursor is settled by what it says of the text ahead. -/
theorem read_eq_of_took {α : Type} {reader : Reader α} {v : α} {n : Nat}
    (h : reader c.ahead = .took v n) : c.read reader = .ok (v, c.advanceBy n) := by
  rw [read, h]

theorem read_eq_of_fault {α : Type} {reader : Reader α} {complaint : Complaint}
    (h : reader c.ahead = .fault complaint) :
    c.read reader = .error (complaint, (c.advanceBy complaint.distance).location) := by
  rw [read, h]

/-- Every way of reading a string is that of the reader. -/
theorem ReadsString.read_eq (h : c.ReadsString r) : c.read Reader.string = r := by
  cases h with
  | nothing hquote =>
    -- neither quote is ahead
    have havoids : c.ahead.Avoids CodeUnit.isQuote := by
      cases hahead : c.ahead with
      | nil => rfl
      | cons u t =>
        have hsingle : u ≠ CodeUnit.singleQuote := fun hu => hquote .single (by rw [hahead, hu]; rfl)
        have hdouble : u ≠ CodeUnit.doubleQuote := fun hu => hquote .double (by rw [hahead, hu]; rfl)
        rw [Text.avoids_cons, CodeUnit.isQuote]
        simp [hsingle, hdouble]
    exact read_eq_of_took (Reader.string_eq_none havoids)
  | literal hahead hbody =>
    apply read_eq_of_took
    rw [hahead]
    exact Reader.string_closed hbody _
  | @invalidEscape quote body after u hahead hbody hu =>
    have hfault := Reader.string_badEscape hbody (Text.escapable_eq_false_iff.mpr hu) after
    rw [← hahead] at hfault
    have hshown : (if u.isLineEnd then Text.describe (some u) else [u])
        = if u.isLineEnd then ("newline" : Text) else [u] := by
      split
      · next hend => rw [Text.describe, if_pos hend]
      · rfl
    rw [read_eq_of_fault hfault, Reader.invalidEscape, hshown]
  | @unterminated quote body hahead hbody =>
    have hfault : Reader.string c.ahead = .fault Reader.unterminatedString := by
      rcases hahead with hahead | hahead
      · have hopen := Reader.string_unterminated hbody (.inl rfl)
        rwa [List.append_nil, ← hahead] at hopen
      · rw [hahead]
        exact Reader.string_unterminated hbody (.inr rfl)
    exact read_eq_of_fault hfault

/-- At every cursor a string can be read in one of the ways. -/
theorem exists_readsString (c : Cursor) : ∃ r, c.ReadsString r := by
  by_cases hquote : ∀ quote : Quote, c.ahead.head? ≠ some quote.unit
  · exact ⟨_, .nothing hquote⟩
  · obtain ⟨quote, hhead⟩ := not_forall_not.mp hquote
    obtain ⟨t, hahead⟩ := List.head?_eq_some_iff.mp hhead
    -- the longest body ahead, and the four texts that it cannot go on with
    obtain ⟨body, rest, rfl, hbody, hstop⟩ := Text.exists_isBody quote.unit t
    cases hstop with
    | ended => exact ⟨_, .unterminated (.inl (by rwa [List.append_nil] at hahead)) hbody⟩
    | backslash => exact ⟨_, .unterminated (.inr hahead) hbody⟩
    | closed after => exact ⟨_, .literal hahead hbody⟩
    | badEscape hu after =>
      exact ⟨_, .invalidEscape hahead hbody (Text.escapable_eq_false_iff.mp hu)⟩

/--
At every cursor the reader of strings does what one of the ways of reading a string says, and nothing
else. Where a body with its closing quote is ahead, there is only one such body.
-/
theorem readsString_iff (c : Cursor) :
    (∀ r, c.read Reader.string = r ↔ c.ReadsString r) ∧
    ∀ (quote : Quote) (body after body' after' : Text),
      c.ahead = quote.unit :: (body ++ quote.unit :: after) → body.IsBody quote.unit →
      c.ahead = quote.unit :: (body' ++ quote.unit :: after') → body'.IsBody quote.unit →
        body = body' ∧ after = after' := by
  constructor
  · intro r
    constructor
    · intro hread
      obtain ⟨r', hr'⟩ := exists_readsString c
      have hsame : r' = r := hr'.read_eq.symm.trans hread
      exact hsame ▸ hr'
    · exact ReadsString.read_eq
  · intro quote body after body' after' hahead hbody hahead' hbody'
    -- two readings of one text start with the same quote
    have htail := (List.cons.inj (hahead.symm.trans hahead')).2
    exact hbody.eq_of_append_eq hbody' htail

/-- A quote behind a backslash does not close the string, and of two quotes the first one does. -/
theorem readsString_iff_escaped :
    (ofText "'\\'' 'c").ReadsString
      (.ok (some ⟨"\\'", .single⟩, (ofText "'\\'' 'c").advanceBy 4)) ∧
    Text.IsBody Quote.single.unit "\\'" ∧
    (ofText "'\\'' 'c").ahead
      = Quote.single.unit :: ("\\'" ++ Quote.single.unit :: (" 'c" : Text)) ∧
    (("\\'" : Text) = "\\'" ∧ (" 'c" : Text) = " 'c") := by
  have hbody : Text.IsBody Quote.single.unit "\\'" := .escape (by decide) .nil
  have hahead : (ofText "'\\'' 'c").ahead
      = Quote.single.unit :: ("\\'" ++ Quote.single.unit :: (" 'c" : Text)) := by decide
  have hread : (ofText "'\\'' 'c").read Reader.string
      = .ok (some ⟨"\\'", .single⟩, (ofText "'\\'' 'c").advanceBy 4) := by rfl
  exact ⟨((readsString_iff _).1 _).mp hread, hbody, hahead,
    (readsString_iff _).2 .single _ _ _ _ hahead hbody hahead hbody⟩

end Cursor

end GDScript
