import GDScript.Proofs.Lexeme.Comment
import GDScript.Proofs.Lexeme.Literal
import GDScript.Proofs.Lexeme.Numeral
import GDScript.Reader.Operator

/-!
# The longest lexeme

A `Lexicon` says which lexemes there are, what they mean and before which texts they may stand. A reader
of lexemes is all or nothing (`Cursor.TakesLongest`): it leaves the cursor as it is where no lexeme is
ahead, and otherwise it takes the longest one (`Cursor.readers_take_longest`). A reader that tries words
or operators one after the other takes the first of them, which is the longest where no text stands in
front of one that it is the beginning of (`Spelling.LongerFirst`).

The tables of operators do not only agree with themselves: what is read as an operator of one level of
the grammar is not the beginning of an operator of another level (`Spelling.KeepsWhole`).
-/

namespace GDScript

/-! ### Lexicons -/

/-- What a lexeme means, how it is spelled, and the text in front of which it may stand. -/
abbrev Lexicon (α : Type) := α → Text → Text → Prop

namespace Lexicon

/-- Names, kept as they are spelled. -/
def identifier : Lexicon (Option Text) := fun value lexeme _ => value = some lexeme ∧ lexeme.IsName

/-- Chains of names, kept as they are spelled. -/
def chain (separator : CodeUnit) : Lexicon (Option Text) := fun value lexeme _ =>
  value = some lexeme ∧ lexeme.IsChain separator

/-- Digits, a point and digits. -/
def float : Lexicon (Option FloatLiteral) := fun value lexeme _ =>
  ∃ literal, value = some literal ∧ literal.IsNumeral ∧ literal.raw = lexeme

/-- Node paths, kept as they are spelled. -/
def nodePath : Lexicon (Option Text) := fun value lexeme _ => value = some lexeme ∧ lexeme.IsNodePath

/-- Comments, without their hash and the blanks at their ends. -/
def comment : Lexicon (Option Text) := fun value lexeme _ =>
  ∃ body, lexeme = CodeUnit.hash :: body ∧ (∀ u ∈ body, u.isLineEnd = false) ∧
    value = some (Text.trim body)

/-- A word that no name goes on with. -/
def word (word : Text) : Lexicon Bool := fun value lexeme after =>
  value = true ∧ lexeme = word ∧ after.Avoids CodeUnit.isIdentifierChar

/-- The word of a choice, as a whole word. -/
def choice {α : Type} (word : α → Text) (choice : α) : Lexicon (Option α) :=
  fun value lexeme after =>
    value = some choice ∧ lexeme = word choice ∧ after.Avoids CodeUnit.isIdentifierChar

/-- An operator: a word only as a whole word, and a sign not before the units that it excludes. -/
def spelling {Op : Type} (s : Spelling Op) : Lexicon (Option Op) := fun value lexeme after =>
  value = some s.op ∧ lexeme = s.text ∧ (s.isWord = true → after.Avoids CodeUnit.isIdentifierChar) ∧
    after.Avoids (s.notBefore.contains ·)

/-- The lexemes of all rows of a list. -/
def ofRows {α ρ : Type} (L : ρ → Lexicon α) (rows : List ρ) : Lexicon α := fun value lexeme after =>
  ∃ row ∈ rows, L row value lexeme after

/-- A lexeme is at the start of a text. -/
def StartsIn {α : Type} (L : Lexicon α) (t : Text) : Prop :=
  ∃ value lexeme after, t = lexeme ++ after ∧ L value lexeme after

end Lexicon

namespace Cursor

/-- What is read where a lexeme is taken as a whole or not at all, and the longest one there is. -/
inductive TakesLongest {α : Type} (c : Cursor) (L : Lexicon α) (nothing : α) :
    Except (Complaint × Location) (α × Cursor) → Prop where
  /-- No lexeme is ahead, and the cursor stays where it is. -/
  | missing (hnone : ¬ L.StartsIn c.ahead) :
      TakesLongest c L nothing (.ok (nothing, c))
  /-- A lexeme is ahead, and every other one that is ahead is the beginning of it. -/
  | longest {value : α} {lexeme after : Text} (hahead : c.ahead = lexeme ++ after)
      (hlexeme : L value lexeme after)
      (hlongest : ∀ value' lexeme' after', c.ahead = lexeme' ++ after' →
        L value' lexeme' after' → lexeme' <+: lexeme) :
      TakesLongest c L nothing (.ok (value, c.advanceBy lexeme.length))

variable {α β : Type} {c : Cursor} {L : Lexicon α} {nothing : α} {reader : Reader α}

theorem takesLongest_missing (hreader : reader c.ahead = .took nothing 0)
    (hnone : ¬ L.StartsIn c.ahead) : c.TakesLongest L nothing (c.read reader) := by
  rw [read_eq_of_took hreader, advanceBy_zero]
  exact .missing hnone

theorem takesLongest_longest {value : α} {lexeme after : Text}
    (hreader : reader c.ahead = .took value lexeme.length) (hahead : c.ahead = lexeme ++ after)
    (hlexeme : L value lexeme after)
    (hlongest : ∀ value' lexeme' after', c.ahead = lexeme' ++ after' →
      L value' lexeme' after' → lexeme' <+: lexeme) :
    c.TakesLongest L nothing (c.read reader) := by
  rw [read_eq_of_took hreader]
  exact .longest hahead hlexeme hlongest

/--
A reader that takes what a search finds takes the longest lexeme: what is found is a lexeme that is
ahead, and where a lexeme is ahead, something is found that starts with it.
-/
theorem takesLongest_of_search (find : Text → Option β) (value : β → α) (spelled : β → Text)
    (hreader : ∀ t, reader t
      = (find t).elim (.took nothing 0) fun found => .took (value found) (spelled found).length)
    (hfound : ∀ {t found}, find t = some found →
      ∃ after, t = spelled found ++ after ∧ L (value found) (spelled found) after)
    (hstarts : ∀ {value' lexeme after}, L value' lexeme after →
      ∃ found, find (lexeme ++ after) = some found ∧ lexeme <+: spelled found) (c : Cursor) :
    c.TakesLongest L nothing (c.read reader) := by
  -- what is found starts with every lexeme that is ahead, so it is the longest one
  cases hfind : find c.ahead with
  | none =>
    apply takesLongest_missing
    · rw [hreader, hfind]
      rfl
    · rintro ⟨value', lexeme, after, hahead, hlexeme⟩
      obtain ⟨found, hsome, -⟩ := hstarts hlexeme
      rw [← hahead, hfind] at hsome
      cases hsome
  | some found =>
    obtain ⟨after, hahead, hlexeme⟩ := hfound hfind
    apply takesLongest_longest _ hahead hlexeme
    · intro value' lexeme' after' hahead' hlexeme'
      obtain ⟨found', hsome, hprefix⟩ := hstarts hlexeme'
      rw [← hahead', hfind] at hsome
      cases hsome
      exact hprefix
    · rw [hreader, hfind]
      rfl

/-! ### Names, numbers and comments -/

theorem takesLongest_identifier (c : Cursor) :
    c.TakesLongest .identifier none (c.read Reader.identifier) := by
  apply takesLongest_of_search Text.identifier? some id
  · intro t
    unfold Reader.identifier Reader.lexeme
    cases Text.identifier? t <;> rfl
  · intro t found hfind
    obtain ⟨hname, after, rfl, -⟩ := Text.isName_of_identifier? hfind
    exact ⟨after, rfl, rfl, hname⟩
  · rintro value lexeme after ⟨-, hname⟩
    refine ⟨_, if_pos (Text.startsName_append hname.1), ?_⟩
    rw [id, List.takeWhile_append_of_pos hname.2]
    exact List.prefix_append _ _

end Cursor

/-- A chain that is ahead is the beginning of all that remains of a chain there. -/
theorem Text.IsChain.isPrefix_chainRest {separator : CodeUnit} {s : Text} (h : s.IsChain separator)
    (t : Text) : s <+: (s ++ t).chainRest separator := by
  induction h with
  | name hs =>
    rw [Text.chainRest_append hs.2]
    exact List.prefix_append _ _
  | @cons s s' hs hs' ih =>
    rw [List.append_assoc, List.cons_append, Text.chainRest_append hs.2, chainRest, beq_self_eq_true,
      startsName_append hs'.startsName, Bool.and_self, Bool.or_true, if_pos rfl,
      List.prefix_append_right_inj, List.cons_prefix_cons]
    exact ⟨rfl, ih⟩

/-- Where a chain is ahead, a chain is found that starts with it. -/
theorem Text.IsChain.exists_chain? {separator : CodeUnit} {s : Text} (h : s.IsChain separator)
    (t : Text) : ∃ found, chain? separator (s ++ t) = some found ∧ s <+: found :=
  ⟨_, if_pos (startsName_append h.startsName), h.isPrefix_chainRest t⟩

/-- Where a number with a point is ahead, one is found that starts with it. -/
theorem FloatLiteral.IsNumeral.exists_floatLiteral? {literal : FloatLiteral}
    (h : literal.IsNumeral) (t : Text) :
    ∃ found, Text.floatLiteral? (literal.raw ++ t) = some found ∧ literal.raw <+: found.raw := by
  obtain ⟨hwhole, hfraction⟩ := h
  rename_i whole fraction
  have hdigits : Text.digits (whole ++ CodeUnit.dot :: (fraction ++ t)) = whole :=
    Text.digits_append hwhole.2 (Text.avoids_cons.mpr (by decide))
  have hrest : Text.digits (fraction ++ t) = fraction ++ Text.digits t :=
    List.takeWhile_append_of_pos hfraction.2
  simp [Text.floatLiteral?, hdigits, hrest, hwhole.1, hfraction.1]

namespace Cursor

theorem takesLongest_chain (separator : CodeUnit) (c : Cursor) :
    c.TakesLongest (.chain separator) none (c.read (Reader.lexeme (Text.chain? separator))) := by
  apply takesLongest_of_search (Text.chain? separator) some id
  · intro t
    unfold Reader.lexeme
    cases Text.chain? separator t <;> rfl
  · intro t found hfind
    obtain ⟨hchain, after, rfl⟩ := Text.isChain_of_chain? hfind
    exact ⟨after, rfl, rfl, hchain⟩
  · rintro value lexeme after ⟨-, hchain⟩
    exact hchain.exists_chain? after

theorem takesLongest_float (c : Cursor) :
    c.TakesLongest .float none (c.read Reader.float) := by
  apply takesLongest_of_search Text.floatLiteral? some FloatLiteral.raw
  · intro t
    unfold Reader.float
    cases Text.floatLiteral? t <;> rfl
  · intro t found hfind
    obtain ⟨hnumeral, after, rfl⟩ := Text.isNumeral_of_floatLiteral? hfind
    exact ⟨after, rfl, found, rfl, hnumeral, rfl⟩
  · rintro value lexeme after ⟨literal, -, hnumeral, rfl⟩
    exact hnumeral.exists_floatLiteral? after

theorem takesLongest_comment (c : Cursor) :
    c.TakesLongest .comment none (c.read Reader.comment) := by
  apply takesLongest_of_search Text.comment? (fun found => some (Text.trim (found.drop 1))) id
  · intro t
    unfold Reader.comment
    cases Text.comment? t <;> rfl
  · intro t found hfind
    obtain ⟨body, after, rfl, rfl, hbody, -⟩ := Text.exists_of_comment? hfind
    exact ⟨after, rfl, body, rfl, hbody, rfl⟩
  · rintro value lexeme after ⟨body, rfl, hbody, -⟩
    -- a comment goes on up to the end of its line, however short a part of it is looked at
    have htake : (body ++ after).takeWhile (!CodeUnit.isLineEnd ·)
        = body ++ after.takeWhile (!CodeUnit.isLineEnd ·) :=
      List.takeWhile_append_of_pos (by simpa using hbody)
    refine ⟨CodeUnit.hash :: (body ++ after.takeWhile (!CodeUnit.isLineEnd ·)), ?_, ?_⟩
    · show Text.comment? (CodeUnit.hash :: (body ++ after)) = _
      rw [Text.comment?, if_pos (beq_self_eq_true CodeUnit.hash), htake]
    · exact List.cons_prefix_cons.2 ⟨rfl, List.prefix_append _ _⟩

end Cursor

/-! ### Node paths -/

/-- Where a node path is ahead, one is read that starts with it. -/
theorem Text.IsNodePath.exists_nodePath {path : Text} (h : path.IsNodePath) (t : Text) :
    ∃ found : Text, Reader.nodePath (path ++ t) = .took (some found) found.length ∧
      path <+: found := by
  cases h with
  | @names names hnames =>
    have hquote : Reader.string (names ++ t) = .took none 0 :=
      Reader.string_eq_none (avoids_isQuote_of_startsName (startsName_append hnames.startsName))
    obtain ⟨found, hfound, hprefix⟩ := hnames.exists_chain? t
    refine ⟨CodeUnit.dollar :: found, ?_, List.cons_prefix_cons.2 ⟨rfl, hprefix⟩⟩
    simp [Reader.nodePath, hquote, hfound]
  | @quoted literal hvalid =>
    refine ⟨CodeUnit.dollar :: literal.write, ?_, List.prefix_refl _⟩
    simp [Reader.nodePath, Reader.string_append hvalid]

/-- All that the reader of node paths can do. -/
theorem Reader.nodePath_cases (t : Text) :
    nodePath t = .took none 0 ∨
    (∃ path rest : Text, t = path ++ rest ∧ path.IsNodePath ∧
      nodePath t = .took (some path) path.length) ∨
    ∃ rest complaint, t = CodeUnit.dollar :: rest ∧ string rest = .fault complaint ∧
      nodePath t = .fault (complaint.shift 1) := by
  cases t with
  | nil => exact .inl rfl
  | cons u rest =>
    rw [nodePath]
    split
    next hu =>
      obtain rfl := beq_iff_eq.mp hu
      -- behind the dollar sign a string is read or refused, or names are looked for
      split
      next complaint hstring => exact .inr (.inr ⟨rest, complaint, rfl, hstring, rfl⟩)
      next literal length hstring =>
        obtain ⟨hvalid, ⟨after, rfl⟩, rfl⟩ := isValid_of_string hstring
        exact .inr (.inl ⟨_, after, rfl, .quoted hvalid, rfl⟩)
      next hstring =>
        split
        next names hnames =>
          obtain ⟨hchain, after, rfl⟩ := Text.isChain_of_chain? hnames
          exact .inr (.inl ⟨_, after, rfl, .names hchain, rfl⟩)
        next => exact .inl rfl
    next => exact .inl rfl

namespace Cursor

/-- What is read where a string may stand behind the dollar. -/
inductive ReadsNodePath (c : Cursor) :
    Except (Complaint × Location) (Option Text × Cursor) → Prop where
  /-- The longest path is taken, or nothing. -/
  | path {r : Except (Complaint × Location) (Option Text × Cursor)}
      (h : c.TakesLongest .nodePath none r) : ReadsNodePath c r
  /-- No path is ahead, and the complaint about the string behind the dollar is passed on. -/
  | string {complaint : Complaint} {place : Location}
      (hdollar : c.ahead.head? = some CodeUnit.dollar)
      (hstring : (c.advanceBy 1).read Reader.string = .error (complaint, place))
      (hnone : ¬ Lexicon.nodePath.StartsIn c.ahead) :
      ReadsNodePath c (.error (complaint.shift 1, place))

theorem readsNodePath (c : Cursor) : c.ReadsNodePath (c.read Reader.nodePath) := by
  have hstarts {value : Option Text} {lexeme after : Text} (hahead : c.ahead = lexeme ++ after)
      (h : Lexicon.nodePath value lexeme after) : ∃ found : Text,
        Reader.nodePath c.ahead = .took (some found) found.length ∧ lexeme <+: found := by
    rw [hahead]
    exact h.2.exists_nodePath after
  obtain hreader | ⟨path, after, hahead, hpath, hreader⟩ | ⟨rest, complaint, hahead, hstring, hreader⟩ :=
    Reader.nodePath_cases c.ahead
  · apply ReadsNodePath.path
    apply takesLongest_missing hreader
    rintro ⟨value, lexeme, after, hahead, h⟩
    obtain ⟨found, hfound, -⟩ := hstarts hahead h
    rw [hreader] at hfound
    cases hfound
  · apply ReadsNodePath.path
    apply takesLongest_longest hreader hahead ⟨rfl, hpath⟩
    intro value lexeme after' hahead' h
    obtain ⟨found, hfound, hprefix⟩ := hstarts hahead' h
    rw [hreader] at hfound
    cases hfound
    exact hprefix
  · have hbehind : (c.advanceBy 1).ahead = rest := by
      rw [ahead_advanceBy, hahead]
      rfl
    -- the string is read one unit behind the cursor, and so is the place of its complaint
    have hplace : c.advanceBy (complaint.shift 1).distance
        = (c.advanceBy 1).advanceBy complaint.distance := by
      rw [advanceBy_advanceBy, Nat.add_comm]
      rfl
    rw [read_eq_of_fault hreader, hplace]
    apply ReadsNodePath.string
    · rw [hahead]
      rfl
    · exact read_eq_of_fault (by rw [hbehind, hstring])
    · rintro ⟨value, lexeme, after, hahead', h⟩
      obtain ⟨found, hfound, -⟩ := hstarts hahead' h
      rw [hreader] at hfound
      cases hfound

end Cursor

/-! ### One of several rows -/

theorem Text.startsWord_iff_append {word t : Text} : startsWord word t = true ↔
    ∃ after, t = word ++ after ∧ after.Avoids CodeUnit.isIdentifierChar := by
  unfold startsWord
  rw [Bool.and_eq_true, Bool.not_eq_true', List.isPrefixOf_iff_prefix]
  constructor
  · rintro ⟨⟨after, rfl⟩, hafter⟩
    rw [List.drop_left] at hafter
    exact ⟨after, rfl, hafter⟩
  · rintro ⟨after, rfl, hafter⟩
    rw [List.drop_left]
    exact ⟨List.prefix_append _ _, hafter⟩

theorem Spelling.isAt_iff_append {Op : Type} {s : Spelling Op} {t : Text} : s.isAt t = true ↔
    ∃ after, t = s.text ++ after ∧ (s.isWord = true → after.Avoids CodeUnit.isIdentifierChar) ∧
      after.Avoids (s.notBefore.contains ·) := by
  simp only [isAt, Bool.and_eq_true, Bool.not_eq_true', List.isPrefixOf_iff_prefix,
    Bool.and_eq_false_imp, and_assoc]
  constructor
  · rintro ⟨⟨after, rfl⟩, hword, hsole⟩
    rw [List.drop_left] at hword hsole
    exact ⟨after, rfl, hword, hsole⟩
  · rintro ⟨after, rfl, hword, hsole⟩
    rw [List.drop_left]
    exact ⟨List.prefix_append _ _, hword, hsole⟩

namespace Cursor

/-- What is read where the rows of a list are tried one after the other. -/
inductive TakesFirst {α ρ : Type} (c : Cursor) (L : ρ → Lexicon α) (rows : List ρ) (nothing : α) :
    Except (Complaint × Location) (α × Cursor) → Prop where
  /-- No lexeme of any row is ahead, and the cursor stays where it is. -/
  | missing (hnone : ∀ row ∈ rows, ¬ (L row).StartsIn c.ahead) :
      TakesFirst c L rows nothing (.ok (nothing, c))
  /-- A lexeme of a row is taken as a whole, and none of a row in front of it is ahead. -/
  | first {before behind : List ρ} {row : ρ} {value : α} {lexeme after : Text}
      (hrows : rows = before ++ row :: behind)
      (hbefore : ∀ row' ∈ before, ¬ (L row').StartsIn c.ahead) (hahead : c.ahead = lexeme ++ after)
      (hlexeme : L row value lexeme after) :
      TakesFirst c L rows nothing (.ok (value, c.advanceBy lexeme.length))

/-- A reader of the first of some rows that stands ahead, each of them with its word. -/
theorem takesFirst_of_find {ρ : Type} {L : ρ → Lexicon (Option β)} {reader : Reader (Option β)}
    (stands : ρ → Text → Bool) (value : ρ → β) (word : ρ → Text) {rows : List ρ}
    (hreader : ∀ t, reader t = (rows.find? (stands · t)).elim (.took none 0) fun row =>
      .took (some (value row)) (word row).length)
    (hstands : ∀ {row t}, stands row t = true ↔
      ∃ after, t = word row ++ after ∧ L row (some (value row)) (word row) after)
    (hword : ∀ {row value' lexeme after}, L row value' lexeme after →
      value' = some (value row) ∧ lexeme = word row) (c : Cursor) :
    c.TakesFirst L rows none (c.read reader) := by
  -- where a row does not stand, its lexeme is not ahead
  have hnot {row : ρ} (h : ¬ stands row c.ahead = true) : ¬ (L row).StartsIn c.ahead := by
    rintro ⟨value', lexeme, after, hahead, hlexeme⟩
    obtain ⟨rfl, rfl⟩ := hword hlexeme
    exact h (hstands.2 ⟨after, hahead, hlexeme⟩)
  cases hfind : rows.find? (stands · c.ahead) with
  | none =>
    have hread : reader c.ahead = .took none 0 := by
      rw [hreader, hfind]
      rfl
    rw [read_eq_of_took hread, advanceBy_zero]
    exact .missing fun row hrow => hnot (List.find?_eq_none.1 hfind row hrow)
  | some row =>
    have hread : reader c.ahead = .took (some (value row)) (word row).length := by
      rw [hreader, hfind]
      rfl
    obtain ⟨hrow, before, behind, hrows, hbefore⟩ := List.find?_eq_some_iff_append.1 hfind
    obtain ⟨after, hahead, hlexeme⟩ := hstands.1 hrow
    rw [read_eq_of_took hread]
    exact .first hrows (fun row' hrow' => hnot (by simpa using hbefore row' hrow')) hahead hlexeme

/-- The first row that stands ahead is the longest one, unless it is the beginning of a later one. -/
theorem TakesFirst.takesLongest {α ρ : Type} {c : Cursor} {L : ρ → Lexicon α} {rows : List ρ}
    {nothing : α} {r : Except (Complaint × Location) (α × Cursor)} (h : c.TakesFirst L rows nothing r)
    (word : ρ → Text) (hword : ∀ {row value lexeme after}, L row value lexeme after →
      lexeme = word row)
    (hrows : rows.Pairwise fun row row' =>
      ∀ t, (L row).StartsIn t → (L row').StartsIn t → word row' <+: word row) :
    c.TakesLongest (.ofRows L rows) nothing r := by
  cases h with
  | missing hnone =>
    apply TakesLongest.missing
    rintro ⟨value, lexeme, after, hahead, row, hrow, hlexeme⟩
    exact hnone row hrow ⟨value, lexeme, after, hahead, hlexeme⟩
  | @first before behind row value lexeme after hsplit hbefore hahead hlexeme =>
    subst hsplit
    apply TakesLongest.longest hahead ⟨row, by simp, hlexeme⟩
    rintro value' lexeme' after' hahead' ⟨row', hrow', hlexeme'⟩
    have hstarts' : (L row').StartsIn c.ahead := ⟨value', lexeme', after', hahead', hlexeme'⟩
    rw [hword hlexeme, hword hlexeme']
    -- a row in front of the one that is taken is not ahead, and one behind it is not longer
    obtain hmem | hmem := List.mem_append.1 hrow'
    · exact absurd hstarts' (hbefore row' hmem)
    obtain rfl | hmem := List.mem_cons.1 hmem
    · exact List.prefix_refl _
    · have hbehind := (List.pairwise_cons.1 (List.pairwise_append.1 hrows).2.1).1 row' hmem
      exact hbehind _ ⟨value, lexeme, after, hahead, hlexeme⟩ hstarts'

/-! ### Words -/

theorem takesLongest_keyword (word : Text) (c : Cursor) :
    c.TakesLongest (.word word) false (c.read (Reader.keyword word)) := by
  by_cases hword : Text.startsWord word c.ahead = true
  · obtain ⟨after, hahead, hafter⟩ := Text.startsWord_iff_append.1 hword
    apply takesLongest_longest _ hahead ⟨rfl, rfl, hafter⟩
    · rintro value lexeme after' - ⟨-, rfl, -⟩
      exact List.prefix_refl _
    · unfold Reader.keyword Reader.takeIf
      rw [if_pos hword]
  · apply takesLongest_missing
    · unfold Reader.keyword Reader.takeIf
      rw [if_neg hword]
    · rintro ⟨value, lexeme, after, hahead, -, rfl, hafter⟩
      exact hword (Text.startsWord_iff_append.2 ⟨after, hahead, hafter⟩)

theorem takesFirst_oneOf (word : β → Text) (choices : List β) (c : Cursor) :
    c.TakesFirst (Lexicon.choice word) choices none (c.read (Reader.oneOf word choices)) := by
  apply takesFirst_of_find (fun choice => Text.startsWord (word choice)) id word
  · intro t
    unfold Reader.oneOf
    cases choices.find? fun choice => Text.startsWord (word choice) t <;> rfl
  · intro choice t
    rw [Text.startsWord_iff_append]
    simp [Lexicon.choice]
  · rintro choice value lexeme after ⟨rfl, rfl, -⟩
    exact ⟨rfl, rfl⟩

/-- Of the words that only units of names make up, one is ahead at most. -/
theorem takesLongest_oneOf {word : β → Text} {choices : List β}
    (h : ∀ choice ∈ choices, ∀ u ∈ word choice, u.isIdentifierChar = true) (c : Cursor) :
    c.TakesLongest (.ofRows (Lexicon.choice word) choices) none
      (c.read (Reader.oneOf word choices)) := by
  apply (takesFirst_oneOf word choices c).takesLongest word
  · rintro choice value lexeme after ⟨-, rfl, -⟩
    rfl
  · apply List.pairwise_of_forall_mem_list
    rintro choice hchoice choice' hchoice' t ⟨_, _, after, rfl, -, rfl, hafter⟩
      ⟨_, _, after', hsplit, -, rfl, hafter'⟩
    have hsame : word choice' = word choice := by
      rw [← Text.takeWhile_append (h choice' hchoice') hafter', ← hsplit,
        Text.takeWhile_append (h choice hchoice) hafter]
    exact hsame ▸ List.prefix_refl (word choice')

/-! ### Operators -/

theorem takesFirst_operator {Op : Type} (table : List (Spelling Op)) (c : Cursor) :
    c.TakesFirst Lexicon.spelling table none (c.read (Reader.operator table)) := by
  apply takesFirst_of_find Spelling.isAt Spelling.op Spelling.text
  · intro t
    unfold Reader.operator
    cases table.find? (·.isAt t) <;> rfl
  · intro s t
    rw [Spelling.isAt_iff_append]
    simp [Lexicon.spelling]
  · rintro s value lexeme after ⟨rfl, rfl, -⟩
    exact ⟨rfl, rfl⟩

end Cursor

/-- No text of a row is the beginning of a longer one that stands behind it. -/
def Spelling.LongerFirst {Op : Type} (table : List (Spelling Op)) : Prop :=
  table.Pairwise fun s s' => s.text <+: s'.text → s'.text = s.text

instance {Op : Type} (table : List (Spelling Op)) : Decidable (Spelling.LongerFirst table) :=
  inferInstanceAs (Decidable (table.Pairwise _))

namespace Cursor

theorem takesLongest_operator {Op : Type} {table : List (Spelling Op)}
    (h : Spelling.LongerFirst table) (c : Cursor) :
    c.TakesLongest (.ofRows Lexicon.spelling table) none (c.read (Reader.operator table)) := by
  apply (takesFirst_operator table c).takesLongest Spelling.text
  · rintro s value lexeme after ⟨-, rfl, -⟩
    rfl
  · apply h.imp
    rintro s s' hlonger t ⟨_, _, after, rfl, -, rfl, -⟩ ⟨_, _, after', hsplit, -, rfl, -⟩
    obtain hprefix | hprefix := List.prefix_or_prefix_of_prefix
      (List.prefix_append s.text after) (hsplit ▸ List.prefix_append s'.text after')
    · exact hlonger hprefix ▸ List.prefix_refl s'.text
    · exact hprefix

end Cursor

/-! ### Operators that begin with others -/

namespace Spelling

theorem longerFirst_tables : LongerFirst logic ∧ LongerFirst additive ∧ LongerFirst multiplicative ∧
    LongerFirst assign ∧ LongerFirst unary := by
  decide

/-- The texts of all operators between operands and of all assignments. -/
def operatorTexts : List Text :=
  (logic ++ additive ++ multiplicative).map text ++ assign.map text

/-- What is taken as an operator of the table is not cut off from a longer operator. -/
def KeepsWhole {Op : Type} (table : List (Spelling Op)) : Prop :=
  ∀ (c c' : Cursor) (op : Op) (taken : Text),
    c.read (Reader.operator table) = .ok (some op, c') → c.ahead = taken ++ c'.ahead →
    ∀ text ∈ operatorTexts, text <+: c.ahead → taken <+: text → text = taken

/--
The row is not taken where the text is ahead that begins with it: the unit that goes on with it may not
follow, or another row has the whole text.
-/
def Spares {Op : Type} (table : List (Spelling Op)) (s : Spelling Op) (text : Text) : Prop :=
  s.text <+: text → text = s.text ∨ (∃ u ∈ s.notBefore, s.text ++ [u] <+: text) ∨
    ∃ s' ∈ table, s'.text = text ∧ s'.isWord = false ∧ s'.notBefore = []

instance {Op : Type} (table : List (Spelling Op)) (s : Spelling Op) (text : Text) :
    Decidable (Spares table s text) :=
  inferInstanceAs (Decidable (_ → _))

theorem keepsWhole_of_spares {Op : Type} {table : List (Spelling Op)} (hlonger : LongerFirst table)
    (hspares : ∀ s ∈ table, ∀ text ∈ operatorTexts, Spares table s text) : KeepsWhole table := by
  intro c c' op taken hread hahead text htext hstarts hprefix
  have hlongest := Cursor.takesLongest_operator hlonger c
  rw [hread] at hlongest
  cases hlongest with
  | @longest _ lexeme after hahead' hlexeme hmost =>
    obtain ⟨s, hs, -, rfl, hword, hsole⟩ := hlexeme
    have hafter : (c.advanceBy s.text.length).ahead = after := by
      rw [Cursor.ahead_advanceBy, hahead', List.drop_left]
    rw [hafter, hahead'] at hahead
    obtain rfl := List.append_cancel_right hahead
    -- the table spares the longer operator: it is the row itself, or its next unit must not follow, or
    -- it has a row of its own
    obtain heq | ⟨u, hu, hgoes⟩ | ⟨s', hs', rfl, hfree, hnone⟩ := hspares s hs text htext hprefix
    · exact heq
    · -- the unit behind the row is one that may not follow
      obtain ⟨rest, hrest⟩ := hgoes.trans hstarts
      rw [hahead', List.append_assoc, List.append_cancel_left_eq] at hrest
      rw [← hrest, List.singleton_append, Text.avoids_cons] at hsole
      simp [hu] at hsole
    · -- the other row is ahead as well, so it is not longer
      obtain ⟨after', hafter'⟩ := hstarts
      have hshorter := hmost (some s'.op) s'.text after' hafter'.symm ⟨s', hs', rfl, rfl, ?_, ?_⟩
      · exact hshorter.eq_of_length_le hprefix.length_le
      · rw [hfree]
        rintro ⟨⟩
      · rw [hnone]
        cases after' <;> rfl

theorem keepsWhole_tables : KeepsWhole logic ∧ KeepsWhole additive ∧ KeepsWhole multiplicative ∧
    KeepsWhole assign := by
  obtain ⟨hlogic, hadditive, hmultiplicative, hassign, -⟩ := longerFirst_tables
  refine ⟨keepsWhole_of_spares hlogic ?_, keepsWhole_of_spares hadditive ?_,
    keepsWhole_of_spares hmultiplicative ?_, keepsWhole_of_spares hassign ?_⟩
  all_goals decide

end Spelling

/-! ### All readers of lexemes -/

theorem isIdentifierChar_of_mem_modifiers :
    (∀ modifier ∈ VarModifier.all, ∀ u ∈ modifier.word, u.isIdentifierChar = true) ∧
      ∀ modifier ∈ FunctionModifier.all, ∀ u ∈ modifier.word, u.isIdentifierChar = true := by
  decide

/--
Wherever a cursor stands, the readers of names, types, numbers with a point, node paths, comments, words
and operators take the longest lexeme that is ahead or leave the cursor as it is. Of several words or
operators they take the first one that is ahead, and in all lists of the language this is the longest
one. No operator is cut off from a longer one, of whatever level.
-/
theorem Cursor.readers_take_longest (c : Cursor) :
    c.TakesLongest .identifier none (c.read Reader.identifier) ∧
    c.TakesLongest (.chain CodeUnit.dot) none (c.read Reader.dottedIdentifier) ∧
    c.TakesLongest .float none (c.read Reader.float) ∧
    c.ReadsNodePath (c.read Reader.nodePath) ∧
    c.TakesLongest .comment none (c.read Reader.comment) ∧
    (∀ word, c.TakesLongest (.word word) false (c.read (Reader.keyword word))) ∧
    (∀ (Op : Type) (table : List (Spelling Op)),
      c.TakesFirst Lexicon.spelling table none (c.read (Reader.operator table)) ∧
      (Spelling.LongerFirst table →
        c.TakesLongest (.ofRows Lexicon.spelling table) none (c.read (Reader.operator table)))) ∧
    (Spelling.LongerFirst Spelling.logic ∧ Spelling.LongerFirst Spelling.additive ∧
      Spelling.LongerFirst Spelling.multiplicative ∧ Spelling.LongerFirst Spelling.assign ∧
      Spelling.LongerFirst Spelling.unary) ∧
    (∀ (α : Type) (word : α → Text) (choices : List α),
      c.TakesFirst (Lexicon.choice word) choices none (c.read (Reader.oneOf word choices)) ∧
      ((∀ choice ∈ choices, ∀ u ∈ word choice, u.isIdentifierChar = true) →
        c.TakesLongest (.ofRows (Lexicon.choice word) choices) none
          (c.read (Reader.oneOf word choices)))) ∧
    ((∀ modifier ∈ VarModifier.all, ∀ u ∈ modifier.word, u.isIdentifierChar = true) ∧
      ∀ modifier ∈ FunctionModifier.all, ∀ u ∈ modifier.word, u.isIdentifierChar = true) ∧
    Spelling.KeepsWhole Spelling.logic ∧ Spelling.KeepsWhole Spelling.additive ∧
      Spelling.KeepsWhole Spelling.multiplicative ∧ Spelling.KeepsWhole Spelling.assign :=
  ⟨takesLongest_identifier c, takesLongest_chain CodeUnit.dot c, takesLongest_float c,
    readsNodePath c, takesLongest_comment c, fun word => takesLongest_keyword word c,
    fun _ table => ⟨takesFirst_operator table c, fun h => takesLongest_operator h c⟩,
    Spelling.longerFirst_tables,
    fun _ word choices => ⟨takesFirst_oneOf word choices c, fun h => takesLongest_oneOf h c⟩,
    isIdentifierChar_of_mem_modifiers, Spelling.keepsWhole_tables⟩

/-- Two signs are one operator, and a word is no modifier where a name goes on with it. -/
theorem Cursor.readers_take_longest_signs :
    Spelling.LongerFirst Spelling.logic ∧
    (ofText ">=1").TakesLongest (.ofRows Lexicon.spelling Spelling.logic) none
      (.ok (some .gte, (ofText ">=1").advanceBy 2)) ∧
    (ofText "remote_x").TakesLongest
      (.ofRows (Lexicon.choice FunctionModifier.word) FunctionModifier.all) none
      (.ok (none, ofText "remote_x")) := by
  obtain ⟨-, -, -, -, -, -, hoperator, ⟨hlogic, -⟩, -⟩ := readers_take_longest (ofText ">=1")
  obtain ⟨-, -, -, -, -, -, -, -, hword, ⟨-, hmodifier⟩, -⟩ :=
    readers_take_longest (ofText "remote_x")
  exact ⟨hlogic, (hoperator _ _).2 hlogic, (hword _ _ _).2 hmodifier⟩

end GDScript
