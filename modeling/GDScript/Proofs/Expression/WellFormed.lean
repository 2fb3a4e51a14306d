import GDScript.Proofs.Expression.Written
import Mathlib.Tactic.Common

/-!
# Well-formed expressions

`Expr.Fits` says which trees are expressions, by the place where they stand: names at the place of a
value are none of certain words, literals are spelled as their readers want them, and the right side
of a member access is a chain of members. Every expression at the place of a value is written by
some text (`Expr.Fits.exists_written`), with parentheses around every part in the worst case.
-/

namespace GDScript

/-- Where an expression stands. -/
inductive Place where
  | value
  /-- The left side of an assignment, up to its subscripts and members. -/
  | target
  /-- A member of which no member is taken. -/
  | link
  /-- The right side of a member access. -/
  | member
deriving DecidableEq

namespace Place

/-- The name may stand at the place. -/
def Allows (words : List Text) : Place → Text → Prop
  | .value, name => name.IsValueName words
  | .target, name => name.IsValueName []
  | .link, name | .member, name => name.IsName

/-- The place of the left side of a member access that stands at the place. -/
def ofBase : Place → Place
  | .member => .link
  | place => place

end Place

/-- The tree is an expression that may stand at the place. -/
inductive Expr.Fits (words : List Text) : Place → Expr → Prop where
  | constant {c} (h : c ∈ Expr.constants) : Fits words .value c.2
  | int {literal : IntLiteral} (h : literal.IsNumeral)
      (hmax : literal.value ≤ Reader.greatestInt) : Fits words .value (.int literal)
  | float {literal : FloatLiteral} (h : literal.IsNumeral) : Fits words .value (.float literal)
  | string {literal : StringLiteral} (h : literal.IsValid) : Fits words .value (.string literal)
  | nodePath {path : Text} (h : path.IsNodePath) : Fits words .value (.nodePath path)
  | array {es} (h : ∀ e ∈ es, Fits words .value e) : Fits words .value (.array es)
  | object {ps} (hk : ∀ p ∈ ps, Fits words .value p.1) (hv : ∀ p ∈ ps, Fits words .value p.2) :
      Fits words .value (.object ps)
  | unary {op e} (h : Fits words .value e) : Fits words .value (.unary op e)
  | binary {op left right} (hattr : op ≠ .attr) (hindex : op ≠ .index)
      (hleft : Fits words .value left) (hright : Fits words .value right) :
      Fits words .value (.binary op left right)
  | ident {place name} (hplace : place ≠ .member) (h : place.Allows words name) :
      Fits words place (.ident name)
  | call {place name es} (hplace : place ≠ .member) (h : place.Allows words name)
      (hes : ∀ e ∈ es, Fits words .value e) : Fits words place (.call name es)
  | index {place base i} (hplace : place ≠ .member) (hbase : Fits words place base)
      (hi : Fits words .value i) : Fits words place (.binary .index base i)
  | attr {place base m} (hplace : place ≠ .link) (hbase : Fits words place.ofBase base)
      (hm : Fits words .member m) : Fits words place (.binary .attr base m)
  -- a link alone is a member, and a value may be assigned to
  | link {e} (h : Fits words .link e) : Fits words .member e
  | target {e} (h : Fits words .value e) : Fits words .target e

namespace Phrase

variable {words : List Text} {room : Nat}

/-- Two texts are written with room for both. -/
theorem Written.both {p q : Phrase} {s t : Text} (hp : ∃ room, Written words room p s)
    (hq : ∃ room, Written words room q t) :
    ∃ room, Written words room p s ∧ Written words room q t := by
  obtain ⟨m, hm⟩ := hp
  obtain ⟨n, hn⟩ := hq
  exact ⟨max m n, hm.mono (by omega), hn.mono (by omega)⟩

/-- Some text spells the phrase. -/
def CanWrite (words : List Text) (p : Phrase) : Prop := ∃ s room, Written words room p s

/-- Two phrases are written with room for both. -/
theorem CanWrite.both {p q : Phrase} (hp : CanWrite words p) (hq : CanWrite words q) :
    ∃ s t room, Written words room p s ∧ Written words room q t := by
  obtain ⟨s, hs⟩ := hp
  obtain ⟨t, ht⟩ := hq
  exact ⟨s, t, Written.both hs ht⟩

/-- A value stands wherever a looser expression may. -/
theorem CanWrite.looser {b : Bool} {level : Nat} {e : Expr} (h : CanWrite words (.expr b 6 e))
    (hlevel : level ≤ 6) : CanWrite words (.expr b level e) := by
  obtain ⟨s, room, hs⟩ := h
  exact ⟨s, room, hs.looser hlevel (Nat.le_refl 6)⟩

/-- Parentheses make an expression a value. -/
theorem CanWrite.parens {b : Bool} {e : Expr} (h : CanWrite words (.expr true 0 e)) :
    CanWrite words (.expr b 6 e) := by
  obtain ⟨s, room, hs⟩ := h
  exact ⟨_, _, .parens (Text.isGap_nil true) hs (Text.isGap_nil true)⟩

/-- Items are written in turn, the last one without a comma behind it. -/
theorem canWrite_items {m : Bool} {es : List Expr} (hne : m = true ∨ es ≠ [])
    (h : ∀ e ∈ es, CanWrite words (.expr true 6 e)) : CanWrite words (.items m es) := by
  have hgap := Text.isGap_nil true
  -- only what may be empty may end without an item
  induction es with
  | nil =>
    obtain rfl : m = true := by simpa using hne
    exact ⟨[], 0, .noItems⟩
  | cons e es ih =>
    have he := (h e List.mem_cons_self).looser (Nat.zero_le 6)
    cases es with
    | nil =>
      obtain ⟨s, room, hs⟩ := he
      exact ⟨_, _, .lastItem hs hgap⟩
    | cons e' es =>
      have hes := ih (.inr (by simp)) fun e he => h e (List.mem_cons_of_mem _ he)
      obtain ⟨s, t, room, hs, ht⟩ := he.both hes
      exact ⟨_, _, .item hs hgap hgap ht.succ⟩

/-- Pairs are written in turn, each with a comma behind it. -/
theorem canWrite_pairs {ps : List (Expr × Expr)}
    (hk : ∀ p ∈ ps, CanWrite words (.expr true 6 p.1))
    (hv : ∀ p ∈ ps, CanWrite words (.expr true 6 p.2)) : CanWrite words (.pairs ps) := by
  have hgap := Text.isGap_nil true
  induction ps with
  | nil => exact ⟨[], 0, .noPairs⟩
  | cons p ps ih =>
    have hps := ih (fun q hq => hk q (List.mem_cons_of_mem p hq))
      fun q hq => hv q (List.mem_cons_of_mem p hq)
    have hkey := (hk p List.mem_cons_self).looser (Nat.zero_le 6)
    have hvalue := (hv p List.mem_cons_self).looser (Nat.zero_le 6)
    obtain ⟨s, t, room, hs, ht⟩ := hkey.both hvalue
    -- the room of the whole is the greater of the two
    obtain ⟨w, room', hw⟩ := hps
    have hmax := Nat.le_max_left room room'
    exact ⟨_, _, .pair (hs.mono hmax) hgap hgap (ht.mono hmax) hgap hgap
      (hw.mono (show room' ≤ max room room' + 2 by omega))⟩

/-- There is a way of its own to write no arguments. -/
theorem canWrite_arguments {es : List Expr} (h : ∀ e ∈ es, CanWrite words (.expr true 6 e)) :
    CanWrite words (.arguments es) := by
  -- empty parentheses are no list of items
  by_cases hne : es = []
  · rw [hne]
    exact ⟨_, 0, .noArguments (Text.isGap_nil true)⟩
  · obtain ⟨t, room, ht⟩ := canWrite_items (m := false) (.inr hne) h
    exact ⟨_, room, .arguments (Text.isGap_nil true) ht⟩

end Phrase

open Phrase

theorem Text.isGap_space (b : Bool) : IsGap b [CodeUnit.space] := by
  refine isGap_of_false fun u hu => ?_
  rw [List.mem_singleton.mp hu]
  rfl

/-- Each unary operator has a spelling. -/
theorem Spelling.exists_unary (op : UnaryOp) : ∃ row ∈ unary, row.op = op := by
  cases op <;> decide

/-- Each binary operator has a spelling on one of the levels, but for subscripts and members. -/
theorem Spelling.exists_binary {op : BinaryOp} (hattr : op ≠ .attr) (hindex : op ≠ .index) :
    ∃ level ≤ 2, ∃ row ∈ binaryTable level, row.op = op := by
  revert hattr hindex
  cases op <;> decide

namespace Expr

variable {words : List Text}

/-- What some text spells for an expression at the place. -/
def CanWriteAt (words : List Text) (e : Expr) : Place → Prop
  | .value => ∀ b, CanWrite words (.expr b 6 e)
  | .link => CanWrite words (.link e)
  | .member => CanWrite words (.member e)
  | .target => True

/-! A tree of each kind is written in parentheses where its parts are written. -/

/-- An operator in front of a value, in parentheses. -/
theorem canWrite_unary {op : UnaryOp} {e : Expr} (h : CanWrite words (.expr true 6 e)) (b : Bool) :
    CanWrite words (.expr b 6 (.unary op e)) := by
  obtain ⟨row, hrow, rfl⟩ := Spelling.exists_unary op
  obtain ⟨t, room, ht⟩ := h.looser (show 3 ≤ 6 by omega)
  have hwritten := Written.unary hrow (Text.isGap_space true) (fun _ => by simp) ht
  exact .parens ⟨_, _, hwritten.looser (by omega) (by omega)⟩

/-- An operator between two values, in parentheses. -/
theorem canWrite_binary {op : BinaryOp} {left right : Expr} (hattr : op ≠ .attr)
    (hindex : op ≠ .index) (hleft : CanWrite words (.expr true 6 left))
    (hright : CanWrite words (.expr true 6 right)) (b : Bool) :
    CanWrite words (.expr b 6 (.binary op left right)) := by
  obtain ⟨level, hlevel, row, hrow, rfl⟩ := Spelling.exists_binary hattr hindex
  obtain ⟨s, t, room, hs, ht⟩ := (hleft.looser (show level ≤ 6 by omega)).both
    (hright.looser (show level + 1 ≤ 6 by omega))
  have hwritten := Written.binary hlevel hrow hs (Text.isGap_space true) (by simp) (Text.isGap_space true)
    (by simp) ht
  exact .parens ⟨_, _, hwritten.looser (by omega) (by omega)⟩

/-- A name that the place allows. -/
theorem canWriteAt_ident {place : Place} {name : Text} (hplace : place ≠ .member)
    (h : place.Allows words name) : (ident name).CanWriteAt words place := by
  cases place with
  | value => exact fun b => ⟨_, 1, .name h⟩
  | link => exact ⟨_, 1, .linkName h⟩
  | member => exact absurd rfl hplace
  | target => trivial

/-- A call of a name that the place allows. -/
theorem canWriteAt_call {place : Place} {name : Text} {es : List Expr} (hplace : place ≠ .member)
    (h : place.Allows words name) (hes : CanWrite words (.arguments es)) :
    (call name es).CanWriteAt words place := by
  obtain ⟨t, room, ht⟩ := hes
  cases place with
  | value => exact fun b => ⟨_, _, .call h ht⟩
  | link => exact ⟨_, _, .linkCall h ht⟩
  | member => exact absurd rfl hplace
  | target => trivial

/-- A subscript needs no parentheses in a chain, and has them as a value. -/
theorem canWriteAt_index {place : Place} {base i : Expr} (hplace : place ≠ .member)
    (hbase : base.CanWriteAt words place) (hi : CanWrite words (.expr true 6 i)) :
    (binary .index base i).CanWriteAt words place := by
  have hnil := Text.isGap_nil true
  have hi := hi.looser (Nat.zero_le 6)
  cases place with
  | value =>
    obtain ⟨s, t, room, hs, ht⟩ := ((hbase true).looser (show 5 ≤ 6 by omega)).both hi
    have hwritten := Written.index (hs.mono (show room ≤ room + 2 by omega)) hnil ht hnil
    exact fun b => .parens ⟨_, _, hwritten.looser (by omega) (by omega)⟩
  | link =>
    obtain ⟨s, t, room, hs, ht⟩ := CanWrite.both hbase hi
    exact ⟨_, _, .linkIndex (hs.mono (show room ≤ room + 3 by omega)) hnil ht hnil⟩
  | member => exact absurd rfl hplace
  | target => trivial

/-- A chain of members needs no parentheses, but where it stands for a value it has them. -/
theorem canWriteAt_attr {place : Place} {base m : Expr} (hplace : place ≠ .link)
    (hbase : base.CanWriteAt words place.ofBase) (hm : m.CanWriteAt words .member) :
    (binary .attr base m).CanWriteAt words place := by
  cases place with
  | value =>
    obtain ⟨s, t, room, hs, ht⟩ := ((hbase true).looser (show 5 ≤ 6 by omega)).both hm
    exact fun b => .parens ⟨_, _, (Written.attr hs ht).looser (by omega) (by omega)⟩
  | link => exact absurd rfl hplace
  | member =>
    obtain ⟨s, t, room, hs, ht⟩ := CanWrite.both hbase hm
    exact ⟨_, _, .memberMore hs.succ ht⟩
  | target => trivial

/-- Every expression can be written where it may stand. -/
theorem Fits.canWriteAt {place : Place} {e : Expr} (h : e.Fits words place) :
    e.CanWriteAt words place := by
  have hnil := Text.isGap_nil true
  -- the parts have been written as values, so they may stand in brackets and next to operators
  induction h with
  | constant h => exact fun b => ⟨_, 1, .constant h⟩
  | int h hmax => exact fun b => ⟨_, 2, .int h hmax⟩
  | float h => exact fun b => ⟨_, 1, .float h⟩
  | string h => exact fun b => ⟨_, 2, .string h⟩
  | nodePath h => exact fun b => ⟨_, 2, .nodePath h⟩
  | array _ ih =>
    obtain ⟨t, room, ht⟩ := canWrite_items (.inl rfl) fun e he => ih e he true
    exact fun b => ⟨_, _, .array hnil ht⟩
  | object _ _ ihk ihv =>
    obtain ⟨t, room, ht⟩ := canWrite_pairs (fun p hp => ihk p hp true) fun p hp => ihv p hp true
    exact fun b => ⟨_, _, .object hnil ht⟩
  | unary _ ih => exact canWrite_unary (ih true)
  | binary hattr hindex _ _ ihl ihr => exact canWrite_binary hattr hindex (ihl true) (ihr true)
  | ident hplace h => exact canWriteAt_ident hplace h
  | call hplace h _ ih =>
    exact canWriteAt_call hplace h (canWrite_arguments fun e he => ih e he true)
  | index hplace _ _ ih ihi => exact canWriteAt_index hplace ih (ihi true)
  | attr hplace _ _ ih ihm => exact canWriteAt_attr hplace ih ihm
  | link _ ih =>
    obtain ⟨s, room, hs⟩ := ih
    exact ⟨s, room, .memberLink hs⟩
  | target => trivial

/-- Every expression is written by some text, at a place of any level. -/
theorem Fits.exists_written {e : Expr} (h : e.Fits words .value) (b : Bool) {level : Nat}
    (hlevel : level ≤ 6) : ∃ s room, Written words room (.expr b level e) s :=
  (h.canWriteAt b).looser hlevel

end Expr

end GDScript
