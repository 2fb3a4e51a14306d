import GDScript.Proofs.Pairing.Grammar
import GDScript.Proofs.Pairing.SameLine
import GDScript.Proofs.Pairing.Tree

/-!
# The tokens of two texts

A `TokenPairing` says how two texts go together that are read side by side, as far as the tokens of
one line: which cursors stand for each other, with so many brackets open, and what becomes of the
quotations and the places. Its laws are about one step of a cursor each. What follows from them is how
a token, a gap, a bracket, a string and a node path are read in both texts.
-/

namespace GDScript

open Grammar

/-! ### Defaults of parameters -/

/-- How far ahead the value of a default stands: behind its sign, and the gaps around that. -/
def Text.defaultDistance (t : Text) : Nat :=
  t.gapLength + 1 + Text.gapLength (t.drop (t.gapLength + 1))

namespace Cursor

variable {c c' : Cursor}

/-- The cursor stands behind a name, or behind names with points between them. -/
def EndsName (c : Cursor) : Prop := ∃ u, c.behind.head? = some u ∧ u.isIdentifierChar = true

/-- What a cursor passes stands behind it. -/
theorem behind_advanceBy {s rest : Text} (h : c.ahead = s ++ rest) :
    (c.advanceBy s.length).behind = s.reverse ++ c.behind := by
  induction s generalizing c with
  | nil => rfl
  | cons u s ih =>
    have hahead : c.advance.ahead = s ++ rest := by
      rw [ahead_advance, h]
      rfl
    have hbehind : c.advance.behind = u :: c.behind := by rw [advance, h]; rfl
    have hstep : c.advanceBy (s.length + 1) = c.advance.advanceBy s.length := by
      rw [advanceBy, h]
      rfl
    rw [List.length_cons, hstep, ih hahead, hbehind, List.reverse_cons, List.append_assoc]
    rfl

theorem endsName_advanceBy {s rest : Text} (h : c.ahead = s ++ rest) (hne : s ≠ [])
    (hlast : ∀ u, s.getLast? = some u → u.isIdentifierChar = true) :
    (c.advanceBy s.length).EndsName := by
  obtain ⟨u, hu⟩ := Option.ne_none_iff_exists'.mp (mt List.getLast?_eq_none_iff.mp hne)
  refine ⟨u, ?_, hlast u hu⟩
  rw [behind_advanceBy h, List.head?_append, List.head?_reverse, hu]
  rfl

/-- Where the gaps are passed, and plain units, so are those around the sign of a default. -/
theorem default_of_spaces {inside : Cursor → Cursor → Prop}
    (hspaces : ∀ {d d' : Cursor}, inside d d' →
      inside (d.advanceBy d.ahead.gapLength) (d'.advanceBy d'.ahead.gapLength))
    (hplain : ∀ {d d' : Cursor}, inside d d' → d.ahead.StartsPlain 1 →
      inside (d.advanceBy 1) (d'.advanceBy 1)) (h : inside c c')
    (hdefault : Declaration.startsInitializer (c.ahead.drop c.ahead.gapLength) = true) :
    inside (c.advanceBy c.ahead.defaultDistance) (c'.advanceBy c'.ahead.defaultDistance) := by
  rw [Declaration.startsInitializer, Bool.and_eq_true] at hdefault
  have hsign : Text.StartsPlain 1 (c.advanceBy c.ahead.gapLength).ahead := by
    rw [ahead_advanceBy]
    exact Text.startsPlain_of_isPrefixOf (s := [0x3D]) (by decide) hdefault.1
  have hbehind := hspaces (hplain (hspaces h) hsign)
  simp only [advanceBy_advanceBy, ahead_advanceBy] at hbehind
  exact hbehind

end Cursor

/-- Two texts whose tokens are read side by side. -/
structure TokenPairing where
  reports : Reports
  /-- What the other text has between its quotes. -/
  quoted : Text → Text
  /-- What is kept of a place of the first text. -/
  view : Location → Location
  /-- What is kept of a place of the other text. -/
  view' : Location → Location
  /-- The cursors stand for each other, where these brackets are open, the innermost one first. -/
  inside : Text → Cursor → Cursor → Prop
  /-- Places that go together are the same, as far as they are kept. -/
  view_eq {l l' : Location} (h : reports.place l l') : view' l' = view l
  /-- A complaint goes with itself, wherever it is raised. -/
  complaint_eq {k k' : Complaint} (hcode : k'.code = k.code) (harguments : k'.arguments = k.arguments)
    (hhint : k'.hint = k.hint) : reports.complaint k k'
  /-- What is missed in one text is missed in the other one, whatever is there instead. -/
  unexpected {what bs : Text} {c c' : Cursor} (h : inside bs c c') :
    reports.complaint (.unexpected what c.ahead.head?) (.unexpected what c'.ahead.head?)
  /-- Within a line the quotations are the same. -/
  quoted_nil : quoted [] = []
  quoted_cons {u : CodeUnit} {t : Text} (h : u.isLineEnd = false) : quoted (u :: t) = u :: quoted t
  quoted_concat {u : CodeUnit} {t : Text} (h : u.isQuote = true) : quoted (t ++ [u]) = quoted t ++ [u]
  place_inside {bs : Text} {c c' : Cursor} (h : inside bs c c') :
    reports.place c.location c'.location
  sameToken {bs : Text} {c c' : Cursor} (h : inside bs c c') : c.ahead.SameToken c'.ahead
  /-- Plain units are passed in both texts. -/
  plain {bs : Text} {k : Nat} {c c' : Cursor} (h : inside bs c c') (hk : c.ahead.StartsPlain k) :
    inside bs (c.advanceBy k) (c'.advanceBy k)
  /-- So are the gaps on the lines, outside of brackets. -/
  spaces {c c' : Cursor} (h : inside [] c c') :
    inside [] (c.advanceBy c.ahead.gapLength) (c'.advanceBy c'.ahead.gapLength)
  /-- Behind the gaps nothing more belongs to an item, or something does in both texts. -/
  endsItem {c c' : Cursor} (h : inside [] c c') :
    Statement.endsItem (c'.ahead.drop c'.ahead.gapLength)
      = Statement.endsItem (c.ahead.drop c.ahead.gapLength)
  /-- Behind the name or the type of a parameter stands a default, or none does in both texts. -/
  isDefault {bs : Text} {c c' : Cursor} (h : inside (CodeUnit.parenthesis :: bs) c c')
    (hname : c.EndsName) :
    Declaration.startsInitializer (c'.ahead.drop c'.ahead.gapLength)
      = Declaration.startsInitializer (c.ahead.drop c.ahead.gapLength)
  /-- The gaps around the sign of a default are passed in both texts. -/
  default {bs : Text} {c c' : Cursor} (h : inside (CodeUnit.parenthesis :: bs) c c')
    (hname : c.EndsName)
    (hdefault : Declaration.startsInitializer (c.ahead.drop c.ahead.gapLength) = true) :
    inside (CodeUnit.parenthesis :: bs) (c.advanceBy c.ahead.defaultDistance)
      (c'.advanceBy c'.ahead.defaultDistance)
  opener {bs : Text} {u : CodeUnit} {c c' : Cursor} (h : inside bs c c')
    (hu : c.ahead.head? = some u) (hopener : u.isOpener = true) :
    inside (u :: bs) (c.advanceBy 1) (c'.advanceBy 1)
  closer {bs : Text} {u v : CodeUnit} {c c' : Cursor} (h : inside (v :: bs) c c')
    (hu : c.ahead.head? = some u) (hcloser : u.isCloser = true) :
    inside bs (c.advanceBy 1) (c'.advanceBy 1)
  layout {bs : Text} {v : CodeUnit} {c c' : Cursor} (h : inside (v :: bs) c c') :
    inside (v :: bs) (c.advanceBy (c.ahead.layoutLength false))
      (c'.advanceBy (c'.ahead.layoutLength false))
  string {bs : Text} {c c' : Cursor} (h : inside bs c c') :
    Reading.Pairs reports (fun v v' d d' =>
        v' = v.map (fun literal => ⟨quoted literal.body, literal.quote⟩) ∧ inside bs d d')
      c c' (Reader.string c.ahead) (Reader.string c'.ahead)

namespace TokenPairing

variable (p : TokenPairing) {room m : Nat} {bs : Text} {c c' : Cursor} {α : Type}

/-! ### Quotations that are the same in both texts -/

theorem id_nil : id ([] : Text) = [] := rfl

theorem id_cons (u : CodeUnit) (t : Text) : id (u :: t) = u :: id t := rfl

theorem id_concat (u : CodeUnit) (t : Text) : id (t ++ [u]) = id t ++ [u] := rfl

/-! ### Tokens -/

/-- What is kept of a string literal. -/
def quotedLiteral (literal : StringLiteral) : StringLiteral := ⟨p.quoted literal.body, literal.quote⟩

/-- A complaint about the next unit is raised in both texts. -/
theorem carries_expected (what : Text) {V : α → α → Prop} {B : Cursor → Cursor → Prop} :
    Carries p.reports room m (p.inside bs) (expected what : Grammar Rule α) (expected what) V B :=
  fun _ _ hc => pairs_read (.fault (p.unexpected hc) (p.place_inside hc))

/-- A reader that keeps to the token finds the same in both texts. -/
theorem carries_read {reader : Reader α} (h : reader.IsInline) :
    Carries p.reports room m (p.inside bs) (read reader : Grammar Rule α) (read reader) Eq
      (p.inside bs) := by
  intro c c' hc
  refine pairs_read ?_
  have hsame := h.same (p.sameToken hc)
  generalize hread : reader c.ahead = reading, reader c'.ahead = reading' at hsame
  cases hsame with
  | unexpected what => exact .fault (p.unexpected hc) (p.place_inside hc)
  | refl =>
    -- a reader within the line finds the same, and a fault is at the cursor
    cases reading with
    | took v k => exact .took ⟨rfl, p.plain hc (h.plain hread)⟩
    | fault complaint =>
      refine .fault (p.complaint_eq rfl rfl rfl) ?_
      rw [h.near hread]
      exact p.place_inside hc

theorem carries_look {f : Text → α} (h : ∀ {t t' : Text}, t.SameToken t' → f t' = f t) :
    Carries p.reports room m (p.inside bs) (look f : Grammar Rule α) (look f) Eq (p.inside bs) :=
  p.carries_read (Reader.isInline_look h)

theorem carries_skipSpaces :
    Carries p.reports room m (p.inside []) (skipSpaces : Grammar Rule Unit) skipSpaces Eq
      (p.inside []) :=
  fun _ _ hc => pairs_read (.took ⟨rfl, p.spaces hc⟩)

/-- The gap before the next token, which may span lines where a bracket is open. -/
theorem carries_gap :
    Carries p.reports room bs.length (p.inside bs) (gap : Grammar Rule Unit) gap Eq
      (p.inside bs) := by
  intro c c' hc
  refine pairs_nesting_bind ?_
  cases bs with
  | nil => exact p.carries_skipSpaces c c' hc
  | cons v bs => exact pairs_read (.took ⟨rfl, p.layout hc⟩)

theorem carries_require {what : Text} {reader : Reader (Option α)} (h : reader.IsInline) :
    Carries p.reports room m (p.inside bs) (require what reader : Grammar Rule α) (require what reader)
      Eq (p.inside bs) := by
  refine Carries.bind (p.carries_read h) ?_
  rintro found _ rfl
  cases found with
  | none => exact p.carries_expected what
  | some v => exact carries_pure rfl

/-! ### Brackets -/

section Brackets

variable {u : CodeUnit} {text : Text} (htext : text = [u])

include htext

theorem head?_of_isPrefixOf {t : Text} (h : text.isPrefixOf t = true) : t.head? = some u := by
  obtain ⟨rest, rfl⟩ := List.isPrefixOf_iff_prefix.mp h
  rw [htext]
  rfl

/-- A bracket stands in both texts, or in neither of them. -/
theorem isPrefixOf_eq (hu : u ∉ CodeUnit.tokenEnds) (hc : p.inside bs c c') :
    text.isPrefixOf c'.ahead = text.isPrefixOf c.ahead :=
  (p.sameToken hc).isPrefixOf (by simpa [htext] using hu)

theorem carries_expect_opener (hu : u.isOpener = true) :
    Carries p.reports room m (p.inside bs) (expect text : Grammar Rule Unit) (expect text) Eq
      (p.inside (u :: bs)) := by
  intro c c' hc
  refine pairs_read ?_
  rw [Reader.expect, Reader.expect, p.isPrefixOf_eq htext (CodeUnit.not_tokenEnd_of_isOpener hu) hc]
  split
  · next hprefix =>
    have hopened := p.opener hc (head?_of_isPrefixOf htext hprefix) hu
    subst htext
    exact .took ⟨rfl, hopened⟩
  · exact .fault (p.unexpected hc) (p.place_inside hc)

theorem carries_expect_closer (hu : u.isCloser = true) {v : CodeUnit} :
    Carries p.reports room m (p.inside (v :: bs)) (expect text : Grammar Rule Unit) (expect text) Eq
      (p.inside bs) := by
  intro c c' hc
  refine pairs_read ?_
  rw [Reader.expect, Reader.expect, p.isPrefixOf_eq htext (CodeUnit.not_tokenEnd_of_isCloser hu) hc]
  split
  · next hprefix =>
    have hclosed := p.closer hc (head?_of_isPrefixOf htext hprefix) hu
    subst htext
    exact .took ⟨rfl, hclosed⟩
  · exact .fault (p.unexpected hc) (p.place_inside hc)

/-- A bracket that is found is closed. -/
theorem pairs_consume_closer (hu : u.isCloser = true) {v : CodeUnit} (hc : p.inside (v :: bs) c c') :
    Pairs p.reports room m (consume text : Grammar Rule Bool) (consume text) c c'
      fun found found' d d' => found = found' ∧ p.inside (if found then bs else v :: bs) d d' := by
  refine pairs_read ?_
  rw [Reader.consume, Reader.takeIf, Reader.takeIf,
    p.isPrefixOf_eq htext (CodeUnit.not_tokenEnd_of_isCloser hu) hc]
  split
  · next hprefix =>
    have hclosed := p.closer hc (head?_of_isPrefixOf htext hprefix) hu
    subst htext
    exact .took ⟨rfl, hclosed⟩
  · exact .took ⟨rfl, hc⟩

end Brackets

/-! ### Strings and node paths -/

theorem carries_string :
    Carries p.reports room m (p.inside bs) (read Reader.string : Grammar Rule (Option StringLiteral))
      (read Reader.string) (fun v v' => v' = v.map p.quotedLiteral) (p.inside bs) :=
  fun _ _ hc => pairs_read (p.string hc)

/-- A text without line ends is the same between quotes. -/
theorem quoted_eq {t : Text} (h : ∀ u ∈ t, u.isLineEnd = false) : p.quoted t = t := by
  induction t with
  | nil => exact p.quoted_nil
  | cons u t ih =>
    rw [p.quoted_cons (h u List.mem_cons_self), ih fun v hv => h v (List.mem_cons_of_mem u hv)]

/-- A literal is written with the quotation of the other text between the same quotes. -/
theorem quoted_write (literal : StringLiteral) :
    p.quoted literal.write = (p.quotedLiteral literal).write := by
  have hunit : ∀ q : Quote, q.unit.isLineEnd = false ∧ q.unit.isQuote = true := by
    rintro (_ | _) <;> decide
  obtain ⟨hline, hquote⟩ := hunit literal.quote
  rw [StringLiteral.write, List.cons_append, p.quoted_cons hline, p.quoted_concat hquote]
  rfl

/-- What is read behind a dollar sign: a string, or else names. -/
theorem pairs_path {t t' : Text} (hc : p.inside bs c c') (hsame : t.SameToken t')
    (ht : c.ahead = CodeUnit.dollar :: t) (ht' : c'.ahead = CodeUnit.dollar :: t') :
    Reading.Pairs p.reports (fun v v' d d' => v' = v.map p.quoted ∧ p.inside bs d d') c c'
      (Reader.nodePath (CodeUnit.dollar :: t)) (Reader.nodePath (CodeUnit.dollar :: t')) := by
  have hbehind : p.inside bs (c.advanceBy 1) (c'.advanceBy 1) :=
    p.plain hc (ht ▸ Text.startsPlain_append (s := [CodeUnit.dollar]) (by decide) t)
  have hahead : (c.advanceBy 1).ahead = t := by rw [Cursor.ahead_advanceBy, ht]; rfl
  have hahead' : (c'.advanceBy 1).ahead = t' := by rw [Cursor.ahead_advanceBy, ht']; rfl
  -- a quoted path is a string behind the dollar sign, one unit further
  have hstring := p.string hbehind
  rw [hahead, hahead'] at hstring
  rw [Reader.nodePath, Reader.nodePath, if_pos (beq_self_eq_true _), if_pos (beq_self_eq_true _)]
  generalize Reader.string t = reading, Reader.string t' = reading' at hstring
  cases hstring with
  | fault hk hl =>
    refine .fault (p.reports.shift hk) ?_
    rw [Cursor.advanceBy_advanceBy, Cursor.advanceBy_advanceBy, Nat.add_comm 1, Nat.add_comm 1] at hl
    exact hl
  | @took v v' k k' hv =>
    obtain ⟨rfl, hd⟩ := hv
    cases v with
    | some literal =>
      rw [Cursor.advanceBy_advanceBy, Cursor.advanceBy_advanceBy, Nat.add_comm 1, Nat.add_comm 1] at hd
      refine .took ⟨?_, hd⟩
      rw [Option.map_some, p.quoted_cons (by decide), p.quoted_write]
      rfl
    | none =>
      dsimp only [Option.map_none]
      rw [hsame.chain? (by decide)]
      cases hchain : Text.chain? CodeUnit.slash t with
      | none => exact .took ⟨rfl, hc⟩
      | some names =>
        obtain ⟨hnames, rest, rfl⟩ := Text.isChain_of_chain? hchain
        have hplain : ∀ u ∈ CodeUnit.dollar :: names, u.isPlain = true :=
          List.forall_mem_cons.mpr ⟨by decide, hnames.isPlain (by decide)⟩
        refine .took ⟨?_, p.plain hc (ht ▸ Text.startsPlain_append hplain rest)⟩
        rw [Option.map_some, p.quoted_eq (Text.not_isLineEnd_of_plain hplain)]

theorem carries_nodePath :
    Carries p.reports room m (p.inside bs) (read Reader.nodePath : Grammar Rule (Option Text))
      (read Reader.nodePath) (fun v v' => v' = v.map p.quoted) (p.inside bs) := by
  intro c c' hc
  -- no path starts without the dollar sign
  have hnone : ∀ {t : Text}, t.Avoids (· == CodeUnit.dollar) → Reader.nodePath t = .took none 0 := by
    intro t ht
    cases t with
    | nil => rfl
    | cons u t => rw [Reader.nodePath, Text.avoids_cons.mp ht, if_neg Bool.false_ne_true]
  refine pairs_read ?_
  have hsame := p.sameToken hc
  generalize ht : c.ahead = t, ht' : c'.ahead = t' at hsame
  cases hsame with
  | stop h h' =>
    rw [hnone (Text.Alike.avoids_of_stop (by decide) h),
      hnone (Text.Alike.avoids_of_stop (by decide) h')]
    exact .took ⟨rfl, hc⟩
  | @unit u t t' hu h =>
    cases hdollar : u == CodeUnit.dollar with
    | false =>
      rw [hnone (Text.avoids_cons.mpr hdollar), hnone (Text.avoids_cons.mpr hdollar)]
      exact .took ⟨rfl, hc⟩
    | true =>
      obtain rfl : u = CodeUnit.dollar := by simpa using hdollar
      exact p.pairs_path hc h ht ht'

end TokenPairing

end GDScript
