import GDScript.Grammar.Statement
import GDScript.Grammar.Declaration
import GDScript.Proofs.Lexeme.Comment
import GDScript.Proofs.Lexeme.Gap
import GDScript.Proofs.Lexeme.Numeral
import GDScript.Proofs.Lexeme.Quoted
import Mathlib.Data.List.Find

/-!
# Readers that keep to a token

`Text.Alike stops` relates two texts that start alike, up to a unit among the stops or to the end of
a text; what stands behind that may be anything, and it does not matter which of the stops it is. Two
texts may agree up to the ends of their lines (`Text.SameLine`), or only up to where a token ends in
any case (`Text.SameToken`). Most readers look no further than that (`Reader.IsInline`): on both texts
they find the same, or complain about what is there instead, and what they take are plain units, which
neither end a line nor open or close anything.
-/

namespace GDScript

namespace CodeUnit

/-- A bracket that opens. -/
def isOpener (u : CodeUnit) : Bool := List.contains ("([\x7b" : Text) u

/-- The bracket around parameters and arguments. -/
abbrev parenthesis : CodeUnit := 0x28

/-- A bracket that closes. -/
def isCloser (u : CodeUnit) : Bool := List.contains (")]\x7d" : Text) u

/-- The units that end a line, or open or close a bracket, a string or a comment. -/
def delimiters : Text := [lineFeed, carriageReturn] ++ "\"'#" ++ "([\x7b" ++ ")]\x7d"

/-- A unit that is not a delimiter. -/
def isPlain (u : CodeUnit) : Bool := !delimiters.contains u

/-- A class of units that holds no delimiter. -/
theorem isPlain_of_class {p : CodeUnit → Bool} (hp : ∀ v ∈ delimiters, p v = false) {u : CodeUnit}
    (h : p u = true) : u.isPlain = true := by
  rw [isPlain, Bool.not_eq_true', ← Bool.not_eq_true, List.contains_iff_mem]
  intro hu
  rw [hp u hu] at h
  exact Bool.noConfusion h

/-- Spaces are plain. -/
theorem isPlain_of_isSpace {u : CodeUnit} (h : u.isSpace = true) : u.isPlain = true :=
  isPlain_of_class (by decide) h

/-- Units of names are plain. -/
theorem isPlain_of_isIdentifierChar {u : CodeUnit} (h : u.isIdentifierChar = true) :
    u.isPlain = true :=
  isPlain_of_class (by decide) h

/-- The units that end a line. -/
def lineEnds : Text := [lineFeed, carriageReturn]

/-- The units that end a token, whichever it is: the end of the line, a gap, or what may follow an item. -/
def tokenEnds : Text := lineEnds ++ " \t;#"

/-- A unit of a token that is neither a delimiter nor one that ends it. -/
def isInner (u : CodeUnit) : Bool := u.isPlain && !tokenEnds.contains u

theorem isPlain_of_isInner {u : CodeUnit} (h : u.isInner = true) : u.isPlain = true :=
  (Bool.and_eq_true _ _ ▸ h : _ ∧ _).1

theorem isLineEnd_iff {u : CodeUnit} : u.isLineEnd = true ↔ u ∈ lineEnds := by
  rw [isLineEnd, Bool.or_eq_true, beq_iff_eq, beq_iff_eq, lineEnds, List.mem_cons,
    List.mem_singleton]

/-- A unit of a class that holds no line end. -/
theorem isLineEnd_eq_false_of_class {p : CodeUnit → Bool} (hp : ∀ v ∈ lineEnds, p v = false)
    {u : CodeUnit} (h : p u = true) : u.isLineEnd = false := by
  rw [← Bool.not_eq_true, isLineEnd_iff]
  intro hu
  rw [hp u hu] at h
  exact Bool.noConfusion h

/-- A plain unit ends no line. -/
theorem isLineEnd_of_isPlain {u : CodeUnit} (h : u.isPlain = true) : u.isLineEnd = false :=
  isLineEnd_eq_false_of_class (p := isPlain) (by decide) h

theorem isLineEnd_of_isOpener {u : CodeUnit} (h : u.isOpener = true) : u.isLineEnd = false :=
  isLineEnd_eq_false_of_class (p := isOpener) (by decide) h

theorem isLineEnd_of_isCloser {u : CodeUnit} (h : u.isCloser = true) : u.isLineEnd = false :=
  isLineEnd_eq_false_of_class (p := isCloser) (by decide) h

/-- An opening bracket stands inside the token that it starts. -/
theorem not_tokenEnd_of_isOpener {u : CodeUnit} (h : u.isOpener = true) : u ∉ tokenEnds := by
  rw [isOpener, List.contains_iff_mem] at h
  exact (by decide : ∀ v ∈ ("([\x7b" : Text), v ∉ tokenEnds) u h

/-- A closing bracket ends no token by itself. -/
theorem not_tokenEnd_of_isCloser {u : CodeUnit} (h : u.isCloser = true) : u ∉ tokenEnds := by
  rw [isCloser, List.contains_iff_mem] at h
  exact (by decide : ∀ v ∈ (")]\x7d" : Text), v ∉ tokenEnds) u h

end CodeUnit

namespace Text

/-- The texts agree up to where a stop is next, or nothing, in both of them. -/
inductive Alike (stops : Text) : Text → Text → Prop where
  | stop {t t' : Text} (h : ∀ u ∈ t.head?, u ∈ stops) (h' : ∀ u ∈ t'.head?, u ∈ stops) :
    Alike stops t t'
  | unit {u : CodeUnit} {t t' : Text} (hu : u ∉ stops) (h : Alike stops t t') :
    Alike stops (u :: t) (u :: t')

/-- The texts agree up to the ends of their first lines. -/
abbrev SameLine : Text → Text → Prop := Alike CodeUnit.lineEnds

/-- The texts agree up to where a token ends that they start with. -/
abbrev SameToken : Text → Text → Prop := Alike CodeUnit.tokenEnds

/-- The text starts with so many plain units. -/
def StartsPlain (k : Nat) (t : Text) : Prop :=
  ∃ s rest : Text, t = s ++ rest ∧ s.length = k ∧ ∀ u ∈ s, u.isPlain = true

theorem startsPlain_append {s : Text} (hs : ∀ u ∈ s, u.isPlain = true) (rest : Text) :
    StartsPlain s.length (s ++ rest) :=
  ⟨s, rest, rfl, rfl, hs⟩

theorem startsPlain_zero (t : Text) : StartsPlain 0 t := ⟨[], t, rfl, rfl, by simp⟩

/-- A prefix of plain units. -/
theorem startsPlain_of_isPrefixOf {s t : Text} (hs : ∀ u ∈ s, u.isPlain = true)
    (h : s.isPrefixOf t = true) : StartsPlain s.length t := by
  obtain ⟨rest, rfl⟩ := List.isPrefixOf_iff_prefix.mp h
  exact startsPlain_append hs rest

/-- A run of a class without delimiters is plain. -/
theorem startsPlain_takeWhile {p : CodeUnit → Bool} (hp : ∀ v ∈ CodeUnit.delimiters, p v = false)
    (t : Text) : StartsPlain (t.takeWhile p).length t :=
  ⟨t.takeWhile p, t.dropWhile p, List.takeWhile_append_dropWhile.symm, rfl, fun u hu =>
    CodeUnit.isPlain_of_class hp (takeWhile_pos u hu)⟩

namespace Alike

variable {stops : Text} {t t' : Text}

theorem refl (t : Text) : Alike stops t t := by
  induction t with
  | nil => exact .stop (by simp) (by simp)
  | cons u t ih =>
    by_cases hu : u ∈ stops
    · exact .stop (by simpa using hu) (by simpa using hu)
    · exact .unit hu ih

theorem symm (h : Alike stops t t') : Alike stops t' t := by
  induction h with
  | stop h h' => exact .stop h' h
  | unit hu _ ih => exact .unit hu ih

/-- With more stops there is less to agree on. -/
theorem mono {more : Text} (h : Alike stops t t') (hmore : ∀ u ∈ stops, u ∈ more) :
    Alike more t t' := by
  induction h with
  | stop h h' => exact .stop (fun u hu => hmore u (h u hu)) fun u hu => hmore u (h' u hu)
  | @unit u t t' hu _ ih =>
    -- with more stops the texts may have to agree on less than they do
    by_cases hstop : u ∈ more
    · exact .stop (by simpa using hstop) (by simpa using hstop)
    · exact .unit hstop ih

/-- A line that is the same starts with the same token. -/
theorem sameToken (h : SameLine t t') : SameToken t t' := h.mono (by decide)

/-! ### The next unit -/

/-- Where a stop is next, no class of units is that holds none of them. -/
theorem avoids_of_stop {p : CodeUnit → Bool} (hp : ∀ u ∈ stops, p u = false)
    (h : ∀ u ∈ t.head?, u ∈ stops) : t.Avoids p := by
  cases t with
  | nil => exact avoids_nil p
  | cons u t => exact avoids_cons.mpr (hp u (h u rfl))

/-- The next units are the same ones, or stops, or nothing. -/
theorem head?_cases (h : Alike stops t t') : t.head? = t'.head? ∨
    ((∀ u ∈ t.head?, u ∈ stops) ∧ ∀ u ∈ t'.head?, u ∈ stops) := by
  cases h with
  | stop h h' => exact .inr ⟨h, h'⟩
  | unit => exact .inl rfl

/-- Whether the next unit is of a class is the same in both texts, if the class holds no stop. -/
theorem any_head? {p : CodeUnit → Bool} (h : Alike stops t t')
    (hp : ∀ u ∈ stops, p u = false) : t'.head?.any p = t.head?.any p := by
  rcases h.head?_cases with heq | ⟨hstop, hstop'⟩
  · rw [heq]
  · exact (avoids_of_stop hp hstop').trans (avoids_of_stop hp hstop).symm

/-! ### What the line starts with -/

/-- A run ends in front of a stop, so it is the same in both texts. -/
theorem takeWhile {p : CodeUnit → Bool} (h : Alike stops t t')
    (hp : ∀ u ∈ stops, p u = false) : t'.takeWhile p = t.takeWhile p := by
  have hstop : ∀ {s : Text}, (∀ u ∈ s.head?, u ∈ stops) → s.takeWhile p = [] := fun hs =>
    takeWhile_append (s := []) (by simp) (avoids_of_stop hp hs)
  induction h with
  | stop h h' => rw [hstop h, hstop h']
  | unit _ _ ih => rw [List.takeWhile_cons, List.takeWhile_cons, ih]

/-- Behind the same run the texts still agree. -/
theorem dropWhile {p : CodeUnit → Bool} (h : Alike stops t t')
    (hp : ∀ u ∈ stops, p u = false) : Alike stops (t.dropWhile p) (t'.dropWhile p) := by
  have hstop : ∀ {s : Text}, (∀ u ∈ s.head?, u ∈ stops) → s.dropWhile p = s := fun hs =>
    dropWhile_append (s := []) (by simp) (avoids_of_stop hp hs)
  induction h with
  | stop h h' =>
    rw [hstop h, hstop h']
    exact .stop h h'
  | @unit u t t' hu h ih =>
    rw [List.dropWhile_cons, List.dropWhile_cons]
    split
    · exact ih
    · exact .unit hu h

/-- A beginning without stops is that of both texts. -/
theorem append {s rest : Text} (hs : ∀ u ∈ s, u ∉ stops) (h : Alike stops (s ++ rest) t') :
    ∃ rest', t' = s ++ rest' ∧ Alike stops rest rest' := by
  induction s generalizing t' with
  | nil => exact ⟨t', rfl, h⟩
  | cons u s ih =>
    cases h with
    | stop h _ => exact absurd (h u rfl) (hs u List.mem_cons_self)
    | unit _ h =>
      obtain ⟨rest', rfl, hrest⟩ := ih (fun v hv => hs v (List.mem_cons_of_mem u hv)) h
      exact ⟨rest', rfl, hrest⟩

/-- A text without stops starts both of them or none. -/
theorem isPrefixOf {s : Text} (h : Alike stops t t') (hs : ∀ u ∈ s, u ∉ stops) :
    s.isPrefixOf t' = s.isPrefixOf t := by
  rw [Bool.eq_iff_iff, List.isPrefixOf_iff_prefix, List.isPrefixOf_iff_prefix]
  constructor
  · rintro ⟨rest, rfl⟩
    obtain ⟨rest', rfl, -⟩ := append hs h.symm
    exact List.prefix_append _ _
  · rintro ⟨rest, rfl⟩
    obtain ⟨rest', rfl, -⟩ := append hs h
    exact List.prefix_append _ _

/-- What is asked of the unit behind a beginning. -/
theorem isPrefixOf_and {s : Text} {f : Option CodeUnit → Bool} (h : Alike stops t t')
    (hs : ∀ u ∈ s, u ∉ stops)
    (hf : ∀ t t' : Text, Alike stops t t' → f t'.head? = f t.head?) :
    (s.isPrefixOf t' && f (t'.drop s.length).head?)
      = (s.isPrefixOf t && f (t.drop s.length).head?) := by
  rw [h.isPrefixOf hs]
  -- only behind the whole beginning is another unit looked at
  cases hprefix : s.isPrefixOf t with
  | false => rfl
  | true =>
    obtain ⟨rest, rfl⟩ := List.isPrefixOf_iff_prefix.mp hprefix
    obtain ⟨rest', rfl, hrest⟩ := append hs h
    rw [List.drop_left, List.drop_left, hf rest rest' hrest]

/-! ### Words and operators -/

/-- A word is looked for in the token. -/
theorem startsWord {word : Text} (h : SameToken t t') (hword : ∀ u ∈ word, u ∉ CodeUnit.tokenEnds) :
    Text.startsWord word t' = Text.startsWord word t :=
  h.isPrefixOf_and (f := fun next => !next.any CodeUnit.isIdentifierChar) hword fun _ _ h => by
    rw [h.any_head? (by decide)]

/-- An operator and what may not follow it are looked for in the token. -/
theorem isAt {Op : Type} {row : Spelling Op} (h : SameToken t t')
    (htext : ∀ u ∈ row.text, u ∉ CodeUnit.tokenEnds)
    (hnot : ∀ u ∈ row.notBefore, u ∉ CodeUnit.tokenEnds) : row.isAt t' = row.isAt t := by
  rw [Spelling.isAt, Spelling.isAt, Bool.and_assoc, Bool.and_assoc]
  refine h.isPrefixOf_and (f := fun next => !(row.isWord && next.any CodeUnit.isIdentifierChar)
    && !next.any (row.notBefore.contains ·)) htext fun _ _ h => ?_
  have hends : ∀ u ∈ CodeUnit.tokenEnds, row.notBefore.contains u = false := by
    intro u hu
    rw [← Bool.not_eq_true, List.contains_iff_mem]
    exact fun hmem => hnot u hmem hu
  rw [h.any_head? (by decide), h.any_head? hends]

/-! ### Lexemes -/

theorem startsName (h : SameToken t t') : Text.startsName t' = Text.startsName t :=
  h.any_head? (by decide)

/-- A name lies in the token. -/
theorem identifier? (h : SameToken t t') : Text.identifier? t' = Text.identifier? t := by
  rw [Text.identifier?, Text.identifier?, h.startsName, h.takeWhile (by decide)]

/-- The members of a name lie in the token. -/
theorem chainRest {separator : CodeUnit} (hseparator : separator ∉ CodeUnit.tokenEnds)
    (h : SameToken t t') : Text.chainRest separator t' = Text.chainRest separator t := by
  have hstop : ∀ {s : Text}, (∀ u ∈ s.head?, u ∈ CodeUnit.tokenEnds) →
      Text.chainRest separator s = [] := by
    intro s hs
    cases s with
    | nil => rfl
    | cons u s =>
      have hu : u ∈ CodeUnit.tokenEnds := hs u rfl
      have hchar : u.isIdentifierChar = false :=
        (by decide : ∀ v ∈ CodeUnit.tokenEnds, CodeUnit.isIdentifierChar v = false) u hu
      have hne : (u == separator) = false := by
        rw [beq_eq_false_iff_ne]
        rintro rfl
        exact hseparator hu
      rw [Text.chainRest, hchar, hne]
      rfl
  -- the separator ends no token, so the chain ends at a stop at the latest
  induction h with
  | stop h h' => rw [hstop h, hstop h']
  | unit _ h ih => rw [Text.chainRest, Text.chainRest, Alike.startsName h, ih]

/-- A name with its members lies in the token. -/
theorem chain? {separator : CodeUnit} (hseparator : separator ∉ CodeUnit.tokenEnds)
    (h : SameToken t t') : Text.chain? separator t' = Text.chain? separator t := by
  rw [Text.chain?, Text.chain?, h.startsName, h.chainRest hseparator]

/-- The sign of a value lies in the token. -/
theorem startsInitializer (h : SameToken t t') :
    Declaration.startsInitializer t' = Declaration.startsInitializer t := by
  rw [Declaration.startsInitializer, Declaration.startsInitializer, h.isPrefixOf (by decide),
    h.isPrefixOf (by decide)]

theorem digits (h : SameToken t t') : Text.digits t' = Text.digits t := h.takeWhile (by decide)

/-- An integer lies in the token. -/
theorem intLiteral? (h : SameToken t t') : Text.intLiteral? t' = Text.intLiteral? t := by
  rw [Text.intLiteral?, Text.intLiteral?, h.digits, h.isPrefixOf (by decide)]
  cases hprefix : List.isPrefixOf ("0x" : Text) t with
  | false => rfl
  | true =>
    obtain ⟨rest, rfl⟩ := List.isPrefixOf_iff_prefix.mp hprefix
    obtain ⟨rest', rfl, hrest⟩ := append (by decide) h
    have hhex : rest'.takeWhile CodeUnit.isHexDigit = rest.takeWhile CodeUnit.isHexDigit :=
      hrest.takeWhile (by decide)
    have hdrop : ∀ t : Text, List.drop 2 (("0x" : Text) ++ t) = t := fun _ => rfl
    rw [hdrop, hdrop, hhex]

/-- A float lies in the token, and so does the point that makes it one. -/
theorem floatLiteral? (h : SameToken t t') : Text.floatLiteral? t' = Text.floatLiteral? t := by
  have hrest : SameToken (t.drop t.digits.length) (t'.drop t'.digits.length) := by
    rw [Text.digits, Text.digits, drop_length_takeWhile, drop_length_takeWhile]
    exact h.dropWhile (by decide)
  rw [Text.floatLiteral?, Text.floatLiteral?]
  generalize t.drop t.digits.length = s, t'.drop t'.digits.length = s' at hrest
  rw [h.digits]
  -- behind the digits: a stop is no point, and behind a point the digits are the same again
  cases hrest with
  | stop hs hs' =>
    have hdot : ∀ {s : Text}, (∀ u ∈ s.head?, u ∈ CodeUnit.tokenEnds) →
        s = [] ∨ ∃ u rest, s = u :: rest ∧ (u == CodeUnit.dot) = false := by
      intro s hs
      cases s with
      | nil => exact .inl rfl
      | cons u s =>
        exact .inr ⟨u, s, rfl,
          (by decide : ∀ v ∈ CodeUnit.tokenEnds, (v == CodeUnit.dot) = false) u (hs u rfl)⟩
    rcases hdot hs with rfl | ⟨u, s, rfl, hu⟩ <;> rcases hdot hs' with rfl | ⟨v, s', rfl, hv⟩ <;>
      simp [*]
  | unit _ h => simp only [Alike.digits h]

/-- A comment lies in the line, not in the token. -/
theorem comment? (h : SameLine t t') : Text.comment? t' = Text.comment? t := by
  have hstop : ∀ {s : Text}, (∀ u ∈ s.head?, u ∈ CodeUnit.lineEnds) → Text.comment? s = none :=
    fun hs => Text.comment?_eq_none (avoids_of_stop (by decide) hs)
  -- only the first unit may be a hash sign; the comment itself is a run up to the end of the line
  cases h with
  | stop h h' => rw [hstop h, hstop h']
  | unit _ h => rw [Text.comment?, Text.comment?, h.takeWhile (by decide)]

/-- The word for a constant lies in the token. -/
theorem constant? (h : SameToken t t') : Expression.constant? t' = Expression.constant? t := by
  refine List.find?_congr fun row hrow => h.startsWord ?_
  simp only [List.mem_cons, List.not_mem_nil, or_false] at hrow
  rcases hrow with rfl | rfl | rfl | rfl | rfl <;> decide

end Alike

/-! ### Lines that start alike -/

/-- The first lines of the texts are the same, or code stands on them that starts alike. -/
inductive SameStart (t t' : Text) : Prop where
  | line (h : t.SameLine t')
  | code {g r r' : Text} {u : CodeUnit} (hg : ∀ v ∈ g, v.isSpace = true) (hu : u.startsGap true = false)
    (h : t = g ++ u :: r) (h' : t' = g ++ u :: r')

namespace SameStart

variable {t t' : Text}

/-- The next units are the same ones, or both lines have ended. -/
theorem head?_cases (h : SameStart t t') : t.head? = t'.head? ∨
    ((∀ u ∈ t.head?, u ∈ CodeUnit.lineEnds) ∧ ∀ u ∈ t'.head?, u ∈ CodeUnit.lineEnds) := by
  cases h with
  | line h => exact h.head?_cases
  | @code g _ _ _ _ _ h h' =>
    rw [h, h']
    cases g <;> exact .inl rfl

/-- A class of units without line ends holds what comes next in both texts, or in none of them. -/
theorem any_head? {p : CodeUnit → Bool} (h : SameStart t t')
    (hp : ∀ u ∈ CodeUnit.lineEnds, p u = false) : t'.head?.any p = t.head?.any p := by
  rcases h.head?_cases with heq | ⟨hstop, hstop'⟩
  · rw [heq]
  · exact (Alike.avoids_of_stop hp hstop').trans (Alike.avoids_of_stop hp hstop).symm

/-- Both lines have ended, or none of them. -/
theorem atLineEnd (h : SameStart t t') : t'.atLineEnd = t.atLineEnd := by
  have hstop : ∀ {s : Text}, (∀ u ∈ s.head?, u ∈ CodeUnit.lineEnds) → s.atLineEnd = true := by
    intro s hs
    cases s with
    | nil => rfl
    | cons u s => exact CodeUnit.isLineEnd_iff.mpr (hs u rfl)
  rcases h.head?_cases with heq | ⟨hends, hends'⟩
  · rw [Text.atLineEnd, Text.atLineEnd, heq]
  · rw [hstop hends, hstop hends']

/-- A unit that ends no line is next in both texts, or in none of them. -/
theorem isPrefixOf {s : Text} {u : CodeUnit} (hs : s = [u]) (hu : u ∉ CodeUnit.lineEnds)
    (h : SameStart t t') : s.isPrefixOf t' = s.isPrefixOf t := by
  have hhead : ∀ r : Text, s.isPrefixOf r = r.head?.any (· == u) := by
    intro r
    rw [hs]
    cases r with
    | nil => rfl
    | cons v r => simp [List.isPrefixOf, Bool.beq_comm]
  have hp : ∀ v ∈ CodeUnit.lineEnds, (v == u) = false := fun v hv =>
    beq_eq_false_iff_ne.mpr fun heq => hu (heq ▸ hv)
  rw [hhead, hhead, h.any_head? hp]

theorem comment? (h : SameStart t t') : Text.comment? t' = Text.comment? t := by
  cases h with
  | line h => exact h.comment?
  | @code g r r' u hg hu h h' =>
    -- a gap in front of code starts no comment, nor does the code
    have hnone : ∀ r : Text, (g ++ u :: r).comment? = none := by
      intro r
      refine Text.comment?_eq_none ?_
      cases g with
      | nil =>
        rw [List.nil_append, Text.avoids_cons, beq_eq_false_iff_ne]
        rintro rfl
        exact absurd hu (by decide)
      | cons v g =>
        have hv := hg v List.mem_cons_self
        rw [List.cons_append, Text.avoids_cons, beq_eq_false_iff_ne]
        rintro rfl
        exact absurd hv (by decide)
    rw [h, h', hnone, hnone]

/-- Behind the gaps on them the lines start alike. -/
theorem dropWhile_isSpace (h : SameStart t t') :
    SameStart (t.dropWhile CodeUnit.isSpace) (t'.dropWhile CodeUnit.isSpace) := by
  cases h with
  | line h => exact .line (h.dropWhile (by decide))
  | @code g r r' u hg hu h h' =>
    have hspace : u.isSpace = false := by
      rw [← Bool.not_eq_true]
      intro hspace
      rw [startsGap_true_of_isSpace hspace] at hu
      exact Bool.noConfusion hu
    -- the gap is dropped as a whole, and code is next
    have hdrop : ∀ r : Text, (g ++ u :: r).dropWhile CodeUnit.isSpace = u :: r := fun r =>
      Text.dropWhile_append hg (avoids_cons.mpr hspace)
    rw [h, h', hdrop, hdrop]
    exact .code (g := []) (by simp) hu rfl rfl

/-- Whether an item ends is told by the next unit. -/
theorem endsItem (h : SameStart t t') : Statement.endsItem t' = Statement.endsItem t := by
  have hhash := h.isPrefixOf (s := "#") (u := CodeUnit.hash) rfl (by decide)
  have hsemicolon := h.isPrefixOf (s := ";") (u := 0x3B) rfl (by decide)
  rw [Statement.endsItem, Statement.endsItem, h.atLineEnd, hhash, hsemicolon]

end SameStart

end Text

/-! ### Plain units -/

theorem Text.not_isLineEnd_of_plain {s : Text} (hs : ∀ u ∈ s, u.isPlain = true) :
    ∀ u ∈ s, u.isLineEnd = false :=
  fun u hu => CodeUnit.isLineEnd_of_isPlain (hs u hu)

/-- Inner units are plain. -/
theorem Text.isPlain_of_inner {s : Text} (hs : ∀ u ∈ s, u.isInner = true) :
    ∀ u ∈ s, u.isPlain = true :=
  fun u hu => CodeUnit.isPlain_of_isInner (hs u hu)

theorem Text.not_tokenEnd_of_inner {s : Text} (hs : ∀ u ∈ s, u.isInner = true) :
    ∀ u ∈ s, u ∉ CodeUnit.tokenEnds := fun u hu => by
  have hinner := hs u hu
  rw [CodeUnit.isInner, Bool.and_eq_true, Bool.not_eq_true', ← Bool.not_eq_true,
    List.contains_iff_mem] at hinner
  exact hinner.2

/-- A chain holds the separator and units of names only. -/
theorem Text.IsChain.isPlain {separator : CodeUnit} {s : Text}
    (hseparator : separator.isPlain = true) (h : s.IsChain separator) :
    ∀ u ∈ s, u.isPlain = true := by
  induction h with
  | name hs => exact fun u hu => CodeUnit.isPlain_of_isIdentifierChar (hs.2 u hu)
  | cons hs _ ih =>
    rw [List.forall_mem_append, List.forall_mem_cons]
    exact ⟨fun u hu => CodeUnit.isPlain_of_isIdentifierChar (hs.2 u hu), hseparator, ih⟩

/-- A run of a class without delimiters is plain. -/
theorem Text.IsRun.isPlain {p : CodeUnit → Bool} {s : Text}
    (hp : ∀ v ∈ CodeUnit.delimiters, p v = false) (h : s.IsRun p) : ∀ u ∈ s, u.isPlain = true :=
  fun u hu => CodeUnit.isPlain_of_class hp (h.2 u hu)

/-- Digits are plain. -/
theorem IntLiteral.IsNumeral.isPlain {literal : IntLiteral} (h : literal.IsNumeral) :
    ∀ u ∈ literal.raw, u.isPlain = true := by
  cases h with
  | decimal h => exact h.isPlain (by decide)
  | hexadecimal h => exact List.forall_mem_append.mpr ⟨by decide, h.isPlain (by decide)⟩

/-- Digits and the point are plain. -/
theorem FloatLiteral.IsNumeral.isPlain {literal : FloatLiteral} (h : literal.IsNumeral) :
    ∀ u ∈ literal.raw, u.isPlain = true := by
  cases h with
  | mk hw hf =>
    exact List.forall_mem_append.mpr ⟨hw.isPlain (by decide),
      List.forall_mem_cons.mpr ⟨by decide, hf.isPlain (by decide)⟩⟩

/-! ### Readers -/

/-- The readings of two texts are the same, or they complain about what is next there instead. -/
inductive Reading.Alike {α : Type} (t t' : Text) : Reading α → Reading α → Prop where
  | refl (reading : Reading α) : Reading.Alike t t' reading reading
  | unexpected (what : Text) :
    Reading.Alike t t' (.fault (.unexpected what t.head?)) (.fault (.unexpected what t'.head?))

theorem Reading.Alike.of_eq {α : Type} {t t' : Text} {reading reading' : Reading α}
    (h : reading' = reading) : Reading.Alike t t' reading reading' :=
  h ▸ .refl _

/-- The reader keeps to the token, takes plain units only, and complains about the next unit only. -/
structure Reader.IsInline {α : Type} (reader : Reader α) : Prop where
  same {t t' : Text} (h : t.SameToken t') : Reading.Alike t t' (reader t) (reader t')
  plain {t : Text} {v : α} {k : Nat} (h : reader t = .took v k) : t.StartsPlain k
  near {t : Text} {complaint : Complaint} (h : reader t = .fault complaint) : complaint.distance = 0

namespace Reader

variable {α : Type}

/-- A look takes nothing, so only what it sees has to be the same. -/
theorem isInline_look {f : Text → α} (h : ∀ {t t' : Text}, t.SameToken t' → f t' = f t) :
    (look f).IsInline where
  same ht := .of_eq (by rw [look, look, h ht])
  plain hread := by
    cases hread
    exact Text.startsPlain_zero _
  near hread := by cases hread

/-- A condition on the token decides about taking plain units. -/
theorem isInline_takeIf {length : Nat} {condition : Text → Bool}
    (hsame : ∀ {t t' : Text}, t.SameToken t' → condition t' = condition t)
    (hplain : ∀ {t : Text}, condition t = true → t.StartsPlain length) :
    (takeIf length condition).IsInline where
  same ht := .of_eq (by rw [takeIf, takeIf, hsame ht])
  plain {t v k} hread := by
    unfold takeIf at hread
    split_ifs at hread with hcondition
    · cases hread
      exact hplain hcondition
    · cases hread
      exact Text.startsPlain_zero _
  near {t complaint} hread := by
    unfold takeIf at hread
    split_ifs at hread

section Words

variable {s : Text} (hs : ∀ u ∈ s, u.isInner = true)

include hs

/-- A text without token ends is taken from both texts or from none. -/
theorem isInline_consume : (consume s).IsInline :=
  isInline_takeIf (fun ht => ht.isPrefixOf (Text.not_tokenEnd_of_inner hs))
    (Text.startsPlain_of_isPrefixOf (Text.isPlain_of_inner hs))

theorem startsPlain_of_startsWord {t : Text} (h : Text.startsWord s t = true) :
    t.StartsPlain s.length := by
  rw [Text.startsWord, Bool.and_eq_true] at h
  exact Text.startsPlain_of_isPrefixOf (Text.isPlain_of_inner hs) h.1

/-- A keyword is taken from both texts or from none. -/
theorem isInline_keyword : (keyword s).IsInline :=
  isInline_takeIf (fun ht => ht.startsWord (Text.not_tokenEnd_of_inner hs))
    (startsPlain_of_startsWord hs)

/-- Where a text is missing, the complaint names what is next instead. -/
theorem isInline_expect : (expect s).IsInline where
  same ht := by
    rw [expect, expect, ht.isPrefixOf (Text.not_tokenEnd_of_inner hs)]
    split
    · exact .refl _
    · exact .unexpected _
  -- a text that was taken holds neither a line end nor a quote
  plain {t v k} hread := by
    unfold expect at hread
    split_ifs at hread with hprefix
    cases hread
    exact Text.startsPlain_of_isPrefixOf (Text.isPlain_of_inner hs) hprefix
  near {t complaint} hread := by
    unfold expect at hread
    split_ifs at hread
    cases hread
    rfl

/-- Where a keyword is missing, the complaint names what is next instead. -/
theorem isInline_expectKeyword : (expectKeyword s).IsInline where
  same ht := by
    rw [expectKeyword, expectKeyword, ht.startsWord (Text.not_tokenEnd_of_inner hs)]
    split
    · exact .refl _
    · exact .unexpected _
  plain {t v k} hread := by
    unfold expectKeyword at hread
    split_ifs at hread with hword
    cases hread
    exact startsPlain_of_startsWord hs hword
  near {t complaint} hread := by
    unfold expectKeyword at hread
    split_ifs at hread
    cases hread
    rfl

end Words

/-- A search that keeps to the token finds the same plain lexeme. -/
theorem isInline_lexeme {find : Text → Option Text}
    (hsame : ∀ {t t' : Text}, t.SameToken t' → find t' = find t)
    (hplain : ∀ {t found : Text}, find t = some found →
      (∀ u ∈ found, u.isPlain = true) ∧ ∃ rest, t = found ++ rest) : (lexeme find).IsInline where
  same ht := .of_eq (by rw [lexeme, lexeme, hsame ht])
  plain {t v k} hread := by
    unfold lexeme at hread
    cases hfind : find t with
    | none =>
      rw [hfind] at hread
      cases hread
      exact Text.startsPlain_zero _
    | some found =>
      rw [hfind] at hread
      cases hread
      obtain ⟨hfound, rest, rfl⟩ := hplain hfind
      exact Text.startsPlain_append hfound rest
  near {t complaint} hread := by
    unfold lexeme at hread
    split at hread <;> cases hread

theorem isInline_identifier : identifier.IsInline :=
  isInline_lexeme Text.Alike.identifier? fun hfind =>
    have ⟨hname, rest, hrest, _⟩ := Text.isName_of_identifier? hfind
    ⟨fun u hu => CodeUnit.isPlain_of_isIdentifierChar (hname.2 u hu), rest, hrest⟩

theorem isInline_dottedIdentifier : dottedIdentifier.IsInline :=
  isInline_lexeme (Text.Alike.chain? (by decide)) fun hfind =>
    have ⟨hchain, rest, hrest⟩ := Text.isChain_of_chain? hfind
    ⟨hchain.isPlain (by decide), rest, hrest⟩

/-- The first choice ahead is the same one in both texts. -/
theorem isInline_oneOf {word : α → Text} {choices : List α}
    (h : ∀ choice ∈ choices, ∀ u ∈ word choice, u.isInner = true) :
    (oneOf word choices).IsInline where
  same {t t'} ht := by
    -- the same choice is found first
    have hfind : choices.find? (fun choice => Text.startsWord (word choice) t')
        = choices.find? fun choice => Text.startsWord (word choice) t :=
      List.find?_congr fun choice hchoice =>
        ht.startsWord (Text.not_tokenEnd_of_inner (h choice hchoice))
    exact .of_eq (by rw [oneOf, oneOf, hfind])
  plain {t v k} hread := by
    unfold oneOf at hread
    split at hread
    · next found hfind =>
      cases hread
      exact startsPlain_of_startsWord (h found (List.mem_of_find?_eq_some hfind))
        (List.find?_some (p := fun choice => Text.startsWord (word choice) t) hfind)
    · cases hread
      exact Text.startsPlain_zero _
  near {t complaint} hread := by
    unfold oneOf at hread
    split at hread <;> cases hread

/-- The first spelling ahead is the same one in both texts. -/
theorem isInline_operator {Op : Type} {table : List (Spelling Op)}
    (h : ∀ row ∈ table, (∀ u ∈ row.text, u.isInner = true) ∧
      ∀ u ∈ row.notBefore, u ∉ CodeUnit.tokenEnds) : (operator table).IsInline where
  same {t t'} ht := by
    have hfind : table.find? (·.isAt t') = table.find? (·.isAt t) :=
      List.find?_congr fun row hrow =>
        ht.isAt (Text.not_tokenEnd_of_inner (h row hrow).1) (h row hrow).2
    exact .of_eq (by rw [operator, operator, hfind])
  plain {t v k} hread := by
    unfold operator at hread
    split at hread
    · next row hfind =>
      cases hread
      -- of the row only its text is taken, not what must not follow
      have hat : row.isAt t = true := List.find?_some (p := fun row : Spelling Op => row.isAt t) hfind
      rw [Spelling.isAt, Bool.and_assoc, Bool.and_eq_true] at hat
      have hplain := Text.isPlain_of_inner (h row (List.mem_of_find?_eq_some hfind)).1
      exact Text.startsPlain_of_isPrefixOf hplain hat.1
    · cases hread
      exact Text.startsPlain_zero _
  near {t complaint} hread := by
    unfold operator at hread
    split at hread <;> cases hread

theorem isInline_constant : Expression.constant.IsInline where
  same ht := .of_eq (by rw [Expression.constant, Expression.constant, ht.constant?])
  plain {t v k} hread := by
    unfold Expression.constant at hread
    split at hread
    · next word value hfind =>
      cases hread
      rw [Expression.constant?] at hfind
      refine startsPlain_of_startsWord ?_ (t := t) (by simpa using List.find?_some hfind)
      -- the words of the table are names, so they end no token
      have hrow := List.mem_of_find?_eq_some hfind
      simp only [List.mem_cons, Prod.mk.injEq, List.not_mem_nil, or_false] at hrow
      rcases hrow with h | h | h | h | h <;> rw [h.1] <;> decide
    · cases hread
      exact Text.startsPlain_zero _
  near {t complaint} hread := by
    unfold Expression.constant at hread
    split at hread <;> cases hread

/-! ### Numbers -/

theorem isInline_int : int.IsInline where
  same ht := .of_eq (by rw [int, int, ht.intLiteral?])
  plain {t v k} hread := by
    unfold int at hread
    split at hread
    · cases hread
      exact Text.startsPlain_zero _
    · next literal hliteral =>
      split_ifs at hread
      cases hread
      obtain ⟨hnumeral, rest, rfl⟩ := Text.isNumeral_of_intLiteral? hliteral
      exact Text.startsPlain_append hnumeral.isPlain rest
  near {t complaint} hread := by
    unfold int at hread
    split at hread
    · cases hread
    · split_ifs at hread
      cases hread
      rfl

theorem isInline_float : float.IsInline where
  same ht := .of_eq (by rw [float, float, ht.floatLiteral?])
  plain {t v k} hread := by
    unfold float at hread
    split at hread
    · cases hread
      exact Text.startsPlain_zero _
    · next literal hliteral =>
      cases hread
      obtain ⟨hnumeral, rest, rfl⟩ := Text.isNumeral_of_floatLiteral? hliteral
      exact Text.startsPlain_append hnumeral.isPlain rest
  near {t complaint} hread := by
    unfold float at hread
    split at hread <;> cases hread

end Reader

end GDScript
