import GDScript.Proofs.Expression.Boundary

/-!
# Trees of atoms between brackets

The prefix form of an expression is a tree of atoms, written with brackets and separators and
without any escapes. Main statement: `Sexp.IsReadable.readsBack`, no two readable trees are written
alike, and where the text of one ends does not depend on what follows.

An atom is a run of bare units, which no separator belongs to, or ends with a quotation, which tells
its own end; so two atoms that are ahead at once are equal (`Text.IsAtom.append_inj`). A group is
told from others by its opening bracket, and its parts go on as long as a separator is ahead instead
of the closing bracket (`Bracket.parts_append_inj`).
-/

namespace GDScript

/-! ### Atoms -/

namespace CodeUnit

/-- A unit of names, numerals and node paths. -/
def isBare (u : CodeUnit) : Bool := u.isIdentifierChar || u == dot || u == dollar || u == slash

/-- A unit that an atom may start with. -/
def startsAtom (u : CodeUnit) : Bool := u.isBare || u.isQuote

/-- A unit that an atom or a group may start with. -/
def startsForm (u : CodeUnit) : Bool := u.startsAtom || List.contains ("([\x7b" : Text) u

theorem isBare_of_isIdentifierChar {u : CodeUnit} (h : u.isIdentifierChar = true) :
    u.isBare = true := by
  simp [isBare, h]

end CodeUnit

namespace Text

/-- Bare units, or a quotation with bare units in front of it. -/
inductive IsAtom : Text → Prop where
  | bare {t : Text} (h : t.IsRun CodeUnit.isBare) : IsAtom t
  | quoted {before : Text} {literal : StringLiteral} (hbefore : ∀ u ∈ before, u.isBare = true)
      (h : literal.IsValid) : IsAtom (before ++ literal.write)

/-- The text does not go on with an atom. -/
def EndsAtom (t : Text) : Prop := t.Avoids CodeUnit.startsAtom

instance (t : Text) : Decidable t.EndsAtom := inferInstanceAs (Decidable (t.Avoids _))

/-- Where no atom goes on, no bare unit is ahead. -/
theorem EndsAtom.avoids_isBare {t : Text} (h : t.EndsAtom) : t.Avoids CodeUnit.isBare :=
  h.imp fun u hu => by rw [CodeUnit.startsAtom, hu, Bool.true_or]

theorem EndsAtom.avoids_isQuote {t : Text} (h : t.EndsAtom) : t.Avoids CodeUnit.isQuote :=
  h.imp fun u hu => by rw [CodeUnit.startsAtom, hu, Bool.or_true]

/-- The number of units of the atom that is ahead: the bare units, and a string behind them. -/
def atomLength (t : Text) : Nat :=
  let bare := (t.takeWhile CodeUnit.isBare).length
  match Reader.string (t.drop bare) with
  | .took (some _) length => bare + length
  | _ => bare

/-- The reader of strings tells where an atom ends that holds one. -/
theorem IsAtom.atomLength_append {t rest : Text} (h : t.IsAtom) (hrest : rest.EndsAtom) :
    atomLength (t ++ rest) = t.length := by
  cases h with
  | bare h =>
    have hbare : (t ++ rest).takeWhile CodeUnit.isBare = t := takeWhile_append h.2 hrest.avoids_isBare
    simp only [atomLength, hbare, List.drop_left, Reader.string_eq_none hrest.avoids_isQuote]
  | @quoted before literal hbefore h =>
    -- the quote is no bare unit, and from there on the string reader tells the end
    have hquote : (literal.write ++ rest).Avoids CodeUnit.isBare := by
      rw [StringLiteral.write, List.cons_append, List.cons_append, avoids_cons]
      cases literal.quote <;> rfl
    have hbare : (before ++ (literal.write ++ rest)).takeWhile CodeUnit.isBare = before :=
      takeWhile_append hbefore hquote
    simp only [atomLength, List.append_assoc, hbare, List.drop_left, Reader.string_append h,
      List.length_append]

/-- Two atoms that are ahead of the same text are one. -/
theorem IsAtom.append_inj {t t' rest rest' : Text} (h : t.IsAtom) (h' : t'.IsAtom)
    (hrest : rest.EndsAtom) (hrest' : rest'.EndsAtom) (heq : t ++ rest = t' ++ rest') :
    t = t' ∧ rest = rest' := by
  have hlength : t.length = t'.length := by
    rw [← h.atomLength_append hrest, heq, h'.atomLength_append hrest']
  -- two beginnings of one text that are of one length are equal
  exact List.append_inj heq hlength

/-- An atom is not empty. -/
theorem IsAtom.startsWith {t : Text} (h : t.IsAtom) : t.StartsWith CodeUnit.startsAtom := by
  have hbare : ∀ u : CodeUnit, u.isBare = true → u.startsAtom = true := fun u hu => by
    rw [CodeUnit.startsAtom, hu, Bool.true_or]
  cases h with
  | bare h => exact h.startsWith.imp hbare
  | @quoted before literal hbefore h =>
    cases before with
    | nil => cases hq : literal.quote <;> simp [StringLiteral.write, hq] <;> rfl
    | cons u before => exact hbare u (hbefore u List.mem_cons_self)

end Text

/-! ### Forms that are read back -/

/--
Of the values of the kind, only this one is written with the form that is ahead, and where the form
ends does not depend on what follows, if it does not go on with an atom.
-/
def ReadsBack {α : Type} (kind : α → Prop) (form : α → Text) (a : α) : Prop :=
  ∀ a', kind a' → ∀ rest rest' : Text, rest.EndsAtom → rest'.EndsAtom →
    form a ++ rest = form a' ++ rest' → a = a' ∧ rest = rest'

/-- The brackets around a group. -/
inductive Bracket where
  | round
  | square
  | curly
deriving DecidableEq, Repr

namespace Bracket

/-- The unit that a group starts with. -/
def opener : Bracket → CodeUnit
  | round => 0x28
  | square => 0x5B
  | curly => 0x7B

/-- The unit that a group ends with. -/
def closer : Bracket → CodeUnit
  | round => 0x29
  | square => 0x5D
  | curly => 0x7D

/-- What stands between two neighbours of the group. -/
def separator : Bracket → Text
  | round => " "
  | square | curly => ", "

/-- The parts between the brackets. -/
def write (b : Bracket) (parts : List Text) : Text :=
  b.opener :: (Text.join b.separator parts ++ [b.closer])

/-- What stands behind a part when these are the next ones. -/
def tail (b : Bracket) : List Text → Text
  | [] => [b.closer]
  | part :: parts => b.separator ++ part ++ b.tail parts

/-- Behind the first part, what is written depends on the parts that follow. -/
theorem write_cons (b : Bracket) (part : Text) (parts : List Text) :
    b.write (part :: parts) = b.opener :: (part ++ b.tail parts) := by
  rw [write, List.cons_inj_right]
  induction parts generalizing part with
  | nil => rw [Text.join, List.intercalate_singleton, tail]
  | cons next parts ih =>
    rw [Text.join, List.intercalate_cons_cons, List.append_assoc, ← Text.join, ih, tail]
    simp only [List.append_assoc]

/-- Brackets are told apart by how they open. -/
theorem opener_injective {b b' : Bracket} (h : b.opener = b'.opener) : b = b' := by
  revert h
  cases b <;> cases b' <;> decide

theorem startsForm_opener (b : Bracket) : b.opener.startsForm = true := by
  cases b <;> rfl

/-- Nothing that can be read starts with a closing bracket. -/
theorem startsForm_closer (b : Bracket) : b.closer.startsForm = false := by
  cases b <;> rfl

theorem startsAtom_opener (b : Bracket) : b.opener.startsAtom = false := by
  cases b <;> rfl

/-- A separator is told from the closing bracket, and from a unit of an atom. -/
theorem exists_separator (b : Bracket) :
    ∃ u s, b.separator = u :: s ∧ u ≠ b.closer ∧ u.startsAtom = false := by
  cases b <;> exact ⟨_, _, rfl, by decide, by decide⟩

/-- Behind a part no atom goes on. -/
theorem endsAtom_tail (b : Bracket) (parts : List Text) (rest : Text) :
    (b.tail parts ++ rest).EndsAtom := by
  cases parts with
  | nil => cases b <;> rfl
  | cons part parts =>
    obtain ⟨u, s, hseparator, -, hu⟩ := b.exists_separator
    rw [tail, hseparator]
    exact hu

/-- If another part follows, the group does not end. -/
theorem tail_ne_closer (b : Bracket) (part : Text) (parts : List Text) (rest rest' : Text) :
    b.tail (part :: parts) ++ rest ≠ b.closer :: rest' := by
  obtain ⟨u, s, hseparator, hu, -⟩ := b.exists_separator
  rw [tail, hseparator]
  intro heq
  exact hu (List.cons.inj heq).1

section Parts

variable {α : Type} {kind : α → Prop} {form : α → Text} {b : Bracket} {as as' : List α}
  {rest rest' : Text}

/-- Behind a part, the parts go on as long as a separator is ahead. -/
theorem parts_append_inj {a a' : α} (hback : ∀ c ∈ a :: as, ReadsBack kind form c)
    (has' : ∀ c ∈ a' :: as', kind c)
    (heq : form a ++ (b.tail (as.map form) ++ rest) = form a' ++ (b.tail (as'.map form) ++ rest')) :
    a :: as = a' :: as' ∧ rest = rest' := by
  induction as generalizing a a' as' with
  | nil =>
    obtain ⟨rfl, htail⟩ := hback a List.mem_cons_self a' (has' a' List.mem_cons_self) _ _
      (b.endsAtom_tail _ _) (b.endsAtom_tail _ _) heq
    cases as' with
    | nil => exact ⟨rfl, (List.cons.inj htail).2⟩
    | cons next' as' => exact absurd htail.symm (b.tail_ne_closer _ _ _ _)
  | cons next as ih =>
    -- whatever is next behind a part ends it, so the first parts agree, and what follows does
    obtain ⟨rfl, htail⟩ := hback a List.mem_cons_self a' (has' a' List.mem_cons_self) _ _
      (b.endsAtom_tail _ _) (b.endsAtom_tail _ _) heq
    cases as' with
    | nil => exact absurd htail (b.tail_ne_closer _ _ _ _)
    | cons next' as' =>
      rw [List.map_cons, List.map_cons, tail, tail] at htail
      simp only [List.append_assoc] at htail
      obtain ⟨hmore, rfl⟩ := ih (fun c hc => hback c (List.mem_cons_of_mem a hc))
        (fun c hc => has' c (List.mem_cons_of_mem a hc)) (List.append_cancel_left htail)
      exact ⟨by rw [hmore], rfl⟩

/-- A first part is told from the closing bracket of an empty group. -/
theorem write_cons_append_ne {part : Text} (hpart : part.StartsWith CodeUnit.startsForm)
    (parts : List Text) : b.write (part :: parts) ++ rest ≠ b.write [] ++ rest' := by
  intro heq
  have hstart := (hpart.append (b.tail parts)).append rest
  rw [write_cons] at heq
  have hclose : part ++ b.tail parts ++ rest = b.closer :: rest' := (List.cons.inj heq).2
  rw [hclose] at hstart
  exact absurd (hstart : b.closer.startsForm = true) (Bool.eq_false_iff.mp b.startsForm_closer)

/-- A group of parts that are read back is read back. -/
theorem write_append_inj (hform : ∀ a, kind a → (form a).StartsWith CodeUnit.startsForm)
    (has : ∀ a ∈ as, kind a) (hback : ∀ a ∈ as, ReadsBack kind form a) (has' : ∀ a ∈ as', kind a)
    (heq : b.write (as.map form) ++ rest = b.write (as'.map form) ++ rest') :
    as = as' ∧ rest = rest' := by
  -- an empty group is told from others by its closing bracket
  cases as with
  | nil =>
    cases as' with
    | nil => exact ⟨rfl, List.append_cancel_left heq⟩
    | cons a' as' =>
      have hstart' := hform a' (has' a' List.mem_cons_self)
      exact absurd heq.symm (write_cons_append_ne hstart' _)
  | cons a as =>
    cases as' with
    | nil =>
      have hstart := hform a (has a List.mem_cons_self)
      exact absurd heq (write_cons_append_ne hstart _)
    | cons a' as' =>
      rw [List.map_cons, List.map_cons, write_cons, write_cons, List.cons_append, List.cons_append,
        List.append_assoc, List.append_assoc] at heq
      exact parts_append_inj hback has' (List.cons.inj heq).2

/-- Different brackets start differently. -/
theorem eq_of_write_append {b' : Bracket} {parts parts' : List Text}
    (heq : b.write parts ++ rest = b'.write parts' ++ rest') : b = b' :=
  opener_injective (List.cons.inj heq).1

/-- No group starts like an atom. -/
theorem write_append_ne {t : Text} (h : t.IsAtom) (parts : List Text) :
    b.write parts ++ rest ≠ t ++ rest' := by
  intro heq
  have hstart := h.startsWith.append rest'
  rw [← heq] at hstart
  exact absurd (hstart : b.opener.startsAtom = true) (Bool.eq_false_iff.mp b.startsAtom_opener)

end Parts

end Bracket

/-! ### Trees -/

/-- A tree of atoms. -/
inductive Sexp where
  | atom (t : Text)
  | group (b : Bracket) (items : List Sexp)
  /-- Keys with their values, between braces. -/
  | object (pairs : List (Sexp × Sexp))

namespace Sexp

mutual

/-- The text of a tree. -/
def write : Sexp → Text
  | .atom t => t
  | .group b items => b.write (writeList items)
  | .object pairs => Bracket.curly.write (writePairs pairs)

/-- The texts of some trees. -/
def writeList : List Sexp → List Text
  | [] => []
  | s :: rest => s.write :: writeList rest

/-- The texts of some pairs, with a colon between key and value. -/
def writePairs : List (Sexp × Sexp) → List Text
  | [] => []
  | (key, value) :: rest => (key.write ++ ": " ++ value.write) :: writePairs rest

end

/-- A key with its value. -/
def writePair (p : Sexp × Sexp) : Text := p.1.write ++ ": " ++ p.2.write

/-- Each tree has a text of its own. -/
theorem writeList_eq_map (items : List Sexp) : writeList items = items.map write := by
  induction items with
  | nil => rfl
  | cons s items ih => rw [writeList, ih, List.map_cons]

theorem writePairs_eq_map (pairs : List (Sexp × Sexp)) : writePairs pairs = pairs.map writePair := by
  induction pairs with
  | nil => rfl
  | cons p pairs ih => rw [writePairs, ih, List.map_cons, writePair]

/-- All atoms are atoms, and braces are around pairs only. -/
inductive IsReadable : Sexp → Prop where
  | atom {t : Text} (h : t.IsAtom) : IsReadable (.atom t)
  | group {b : Bracket} {items : List Sexp} (hb : b ≠ .curly) (h : ∀ s ∈ items, IsReadable s) :
      IsReadable (.group b items)
  | object {pairs : List (Sexp × Sexp)} (hk : ∀ p ∈ pairs, IsReadable p.1)
      (hv : ∀ p ∈ pairs, IsReadable p.2) : IsReadable (.object pairs)

/-- A tree that can be read starts with an atom or with an opening bracket. -/
theorem IsReadable.startsWith {s : Sexp} (h : s.IsReadable) :
    s.write.StartsWith CodeUnit.startsForm := by
  cases h with
  | atom h =>
    exact h.startsWith.imp fun u hu => by rw [CodeUnit.startsForm, hu, Bool.true_or]
  | @group b items => exact b.startsForm_opener
  | object => rfl

/-- A pair is read back if its key and its value are. -/
theorem readsBack_writePair {p : Sexp × Sexp} (hk : ReadsBack IsReadable write p.1)
    (hv : ReadsBack IsReadable write p.2) :
    ReadsBack (fun q : Sexp × Sexp => q.1.IsReadable ∧ q.2.IsReadable) writePair p := by
  intro q hq rest rest' hrest hrest' heq
  have hcolon : ∀ t : Text, ((": " : Text) ++ t).EndsAtom := fun _ => rfl
  simp only [writePair, List.append_assoc] at heq
  obtain ⟨hkey, hbehind⟩ := hk q.1 hq.1 _ _ (hcolon _) (hcolon _) heq
  obtain ⟨hvalue, rfl⟩ := hv q.2 hq.2 _ _ hrest hrest' (List.append_cancel_left hbehind)
  exact ⟨Prod.ext hkey hvalue, rfl⟩

/-- A readable tree is read back from its form. -/
theorem IsReadable.readsBack {s : Sexp} (h : s.IsReadable) : ReadsBack IsReadable write s := by
  -- the first unit tells the kinds of trees apart; then the parts are read back in turn
  induction h with
  | atom h =>
    intro s' h' rest rest' hrest hrest' heq
    cases h' with
    | atom h' =>
      obtain ⟨rfl, rfl⟩ := h.append_inj h' hrest hrest' heq
      exact ⟨rfl, rfl⟩
    | group => exact absurd heq.symm (Bracket.write_append_ne h _)
    | object => exact absurd heq.symm (Bracket.write_append_ne h _)
  | @group b items hb h ih =>
    intro s' h' rest rest' hrest hrest' heq
    cases h' with
    | atom h' => exact absurd heq (Bracket.write_append_ne h' _)
    | group hb' h' =>
      obtain rfl := Bracket.eq_of_write_append heq
      rw [write, write, writeList_eq_map, writeList_eq_map] at heq
      obtain ⟨rfl, rfl⟩ := Bracket.write_append_inj (fun s hs => hs.startsWith) h ih h' heq
      exact ⟨rfl, rfl⟩
    | object => exact absurd (Bracket.eq_of_write_append heq) hb
  | @object pairs hk hv ihk ihv =>
    intro s' h' rest rest' hrest hrest' heq
    cases h' with
    | atom h' => exact absurd heq (Bracket.write_append_ne h' _)
    | group hb' => exact absurd (Bracket.eq_of_write_append heq).symm hb'
    | object hk' hv' =>
      rw [write, write, writePairs_eq_map, writePairs_eq_map] at heq
      have hform : ∀ p : Sexp × Sexp, p.1.IsReadable ∧ p.2.IsReadable →
          (writePair p).StartsWith CodeUnit.startsForm :=
        fun p hp => (hp.1.startsWith.append _).append _
      obtain ⟨rfl, rfl⟩ := Bracket.write_append_inj hform (fun p hp => ⟨hk p hp, hv p hp⟩)
        (fun p hp => readsBack_writePair (ihk p hp) (ihv p hp))
        (fun p hp => ⟨hk' p hp, hv' p hp⟩) heq
      exact ⟨rfl, rfl⟩

/-- Two readable trees that are written alike are one. -/
theorem IsReadable.eq_of_write_eq {s s' : Sexp} (h : s.IsReadable) (h' : s'.IsReadable)
    (heq : s.write = s'.write) : s = s' :=
  (h.readsBack s' h' [] [] rfl rfl (by rw [heq])).1

end Sexp

end GDScript
