import GDScript.Proofs.Rendering.Sexp
import GDScript.Proofs.WellFormed.Script
import GDScript.Render.Debug

/-!
# The prefix form of expressions

The prefix form of an expression is a tree of atoms (`Expr.write_toSexp`). Of an expression that is
read, every leaf is an atom, so the tree can be read back from the form; and the expression can be
read back from the tree: an atom at a place stands for one leaf (`Place.ofAtom`), and an operator is
told by its name and by how many operands it has (`Expr.Fits.eq_of_toSexp_eq`). So no two expressions
that are read have one prefix form (`Script.expr_format_injective`).

At the place of a member, `null` is a name and elsewhere it is a constant; this is why an expression
is read back at a place.
-/

namespace GDScript

namespace Expr

mutual

/-- The tree that the prefix form of the expression spells. -/
def toSexp : Expr → Sexp
  | .null => .atom "null"
  | .boolean true => .atom "true"
  | .boolean false => .atom "false"
  | .int literal => .atom literal.raw
  | .float literal => .atom literal.raw
  | .string literal => .atom literal.write
  | .nodePath path => .atom path
  | .array elements => .group .square (toSexpList elements)
  | .object pairs => .object (toSexpPairs pairs)
  | .ident name => .atom name
  | .call name arguments => .group .round (.atom "Call" :: .atom name :: toSexpList arguments)
  | .binary op left right => .group .round [.atom op.name, left.toSexp, right.toSexp]
  | .unary op operand => .group .round [.atom op.name, operand.toSexp]

/-- The trees that the prefix forms of some expressions spell. -/
def toSexpList : List Expr → List Sexp
  | [] => []
  | e :: rest => e.toSexp :: toSexpList rest

/-- The trees that the prefix forms of some pairs spell. -/
def toSexpPairs : List (Expr × Expr) → List (Sexp × Sexp)
  | [] => []
  | (key, value) :: rest => (key.toSexp, value.toSexp) :: toSexpPairs rest

end

theorem toSexpList_eq_map (es : List Expr) : toSexpList es = es.map toSexp := by
  induction es with
  | nil => rfl
  | cons e es ih => rw [toSexpList, ih, List.map_cons]

theorem toSexpPairs_eq_map (ps : List (Expr × Expr)) :
    toSexpPairs ps = ps.map (Prod.map toSexp toSexp) := by
  induction ps with
  | nil => rfl
  | cons p ps ih => rw [toSexpPairs, ih, List.map_cons]; rfl

mutual

/-- The prefix form of an expression spells its tree. -/
theorem write_toSexp : ∀ e : Expr, e.toSexp.write = e.format
  | .null | .boolean true | .boolean false | .int _ | .float _ | .string _ | .nodePath _
  | .ident _ => rfl
  | .array elements => by
    rw [toSexp, Sexp.write, writeList_toSexp, format]
    rfl
  | .object pairs => by
    rw [toSexp, Sexp.write, writePairs_toSexp, format]
    rfl
  | .call name arguments => by
    rw [toSexp, Sexp.write, Sexp.writeList, Sexp.writeList, writeList_toSexp, format,
      Bracket.write, Text.join, List.intercalate_cons_cons]
    rfl
  -- operators and calls are groups whose first item is a name
  | .binary op left right => by
    rw [toSexp, Sexp.write, Sexp.writeList, Sexp.writeList, Sexp.writeList, write_toSexp left,
      write_toSexp right, format, Bracket.write_cons]
    simp only [Bracket.tail, Sexp.write, Sexp.writeList, List.append_assoc]
    rfl
  | .unary op operand => by
    rw [toSexp, Sexp.write, Sexp.writeList, Sexp.writeList, write_toSexp operand, format,
      Bracket.write_cons]
    simp only [Bracket.tail, Sexp.write, Sexp.writeList, List.append_assoc]
    rfl

theorem writeList_toSexp : ∀ es : List Expr, Sexp.writeList (toSexpList es) = formatList es
  | [] => rfl
  | e :: rest => by
    rw [toSexpList, Sexp.writeList, write_toSexp e, writeList_toSexp rest, formatList]

theorem writePairs_toSexp :
    ∀ ps : List (Expr × Expr), Sexp.writePairs (toSexpPairs ps) = formatPairs ps
  | [] => rfl
  | (key, value) :: rest => by
    rw [toSexpPairs, Sexp.writePairs, write_toSexp key, write_toSexp value, writePairs_toSexp rest,
      formatPairs]

end

end Expr

/-! ### The form can be read as a tree -/

theorem BinaryOp.isName_name (op : BinaryOp) : op.name.IsName := by
  cases op <;> decide

/-- Operators are told apart by their names. -/
theorem BinaryOp.name_injective {op op' : BinaryOp} (h : op.name = op'.name) : op = op' := by
  revert h
  cases op <;> cases op' <;> decide

/-- No operator is called like a call. -/
theorem BinaryOp.name_ne_call (op : BinaryOp) : op.name ≠ "Call" := by
  cases op <;> decide

theorem UnaryOp.isName_name (op : UnaryOp) : op.name.IsName := by
  cases op <;> decide

theorem UnaryOp.name_injective {op op' : UnaryOp} (h : op.name = op'.name) : op = op' := by
  revert h
  cases op <;> cases op' <;> decide

theorem UnaryOp.name_ne_call (op : UnaryOp) : op.name ≠ "Call" := by
  cases op <;> decide

/-- A name is made of bare units. -/
theorem Text.IsName.isRun {s : Text} (h : s.IsName) : s.IsRun CodeUnit.isBare := by
  refine ⟨?_, fun u hu => CodeUnit.isBare_of_isIdentifierChar (h.2 u hu)⟩
  rintro rfl
  exact absurd h.1 (by decide)

theorem Text.IsChain.isRun {separator : CodeUnit} {s : Text} (h : s.IsChain separator)
    (hseparator : separator.isBare = true) : s.IsRun CodeUnit.isBare := by
  induction h with
  | name hs => exact hs.isRun
  | @cons s t hs ht ih =>
    have hbehind : Text.IsRun CodeUnit.isBare ([separator] ++ t) :=
      Text.IsRun.append ⟨by simp, by simpa using hseparator⟩ ih
    exact hs.isRun.append hbehind

/-- So is the spelling of an integer. -/
theorem IntLiteral.IsNumeral.isRun {literal : IntLiteral} (h : literal.IsNumeral) :
    literal.raw.IsRun CodeUnit.isBare := by
  cases h with
  | decimal h =>
    exact h.imp fun u hu =>
      CodeUnit.isBare_of_isIdentifierChar (CodeUnit.isIdentifierChar_of_isDigit hu)
  | hexadecimal h =>
    have hzero : Text.IsRun CodeUnit.isBare "0x" := by decide
    exact hzero.append (h.imp fun u hu =>
      CodeUnit.isBare_of_isIdentifierChar (CodeUnit.isIdentifierChar_of_isHexDigit hu))

theorem FloatLiteral.IsNumeral.isRun {literal : FloatLiteral} (h : literal.IsNumeral) :
    literal.raw.IsRun CodeUnit.isBare := by
  have hdigits : ∀ u : CodeUnit, u.isDigit = true → u.isBare = true := fun u hu =>
    CodeUnit.isBare_of_isIdentifierChar (CodeUnit.isIdentifierChar_of_isDigit hu)
  have hdot : Text.IsRun CodeUnit.isBare [CodeUnit.dot] := by decide
  obtain ⟨hw, hf⟩ := h
  exact (hw.imp hdigits).append (hdot.append (hf.imp hdigits))

/-- A string is an atom that tells its own end. -/
theorem StringLiteral.IsValid.isAtom {literal : StringLiteral} (h : literal.IsValid) :
    literal.write.IsAtom :=
  have hquoted : Text.IsAtom ([] ++ literal.write) := .quoted (by simp) h
  hquoted

/-- The path of a node is an atom, quoted or not. -/
theorem Text.IsNodePath.isAtom {path : Text} (h : path.IsNodePath) : path.IsAtom := by
  have hdollar : Text.IsRun CodeUnit.isBare [CodeUnit.dollar] := by decide
  cases h with
  | names h => exact .bare (hdollar.append (h.isRun (by decide)))
  | quoted h => exact .quoted hdollar.2 h

namespace Expr

variable {words : List Text}

/-- The names of the constants are atoms. -/
theorem isReadable_toSexp_of_mem_constants {c : Text × Expr} (h : c ∈ constants) :
    c.2.toSexp.IsReadable := by
  have hname : ∀ name : Text, name.IsName → (Sexp.atom name).IsReadable := fun name h =>
    .atom (.bare h.isRun)
  simp only [constants, List.mem_cons, List.not_mem_nil, or_false] at h
  rcases h with rfl | rfl | rfl | rfl | rfl <;> exact hname _ (by decide)

/-- What may stand at some place spells a readable tree. -/
theorem Fits.isReadable_toSexp {place : Place} {e : Expr} (h : e.Fits words place) :
    e.toSexp.IsReadable := by
  -- a group with a name in front
  have hround : ∀ {name : Text} {items : List Sexp}, name.IsName → (∀ s ∈ items, s.IsReadable) →
      (Sexp.group .round (.atom name :: items)).IsReadable := by
    intro name items hname hitems
    exact .group (by decide) (List.forall_mem_cons.mpr ⟨.atom (.bare hname.isRun), hitems⟩)
  have hplace : ∀ {place : Place} {name : Text}, place.Allows words name → name.IsName := by
    intro place name h
    cases place with
    | value | target => exact h.isName
    | link | member => exact h
  induction h with
  | constant h => exact isReadable_toSexp_of_mem_constants h
  | int h => exact .atom (.bare h.isRun)
  | float h => exact .atom (.bare h.isRun)
  | string h => exact .atom h.isAtom
  | nodePath h => exact .atom h.isAtom
  | @array es _ ih =>
    rw [toSexp, toSexpList_eq_map]
    exact .group (by decide) (List.forall_mem_map.mpr ih)
  | @object ps _ _ ihk ihv =>
    rw [toSexp, toSexpPairs_eq_map]
    exact .object (List.forall_mem_map.mpr ihk) (List.forall_mem_map.mpr ihv)
  | @unary op e _ ih => exact hround op.isName_name (by simpa using ih)
  | @binary op left right _ _ _ _ ihl ihr => exact hround op.isName_name (by simpa using ⟨ihl, ihr⟩)
  | ident _ h => exact .atom (.bare (hplace h).isRun)
  | @call place name es _ h _ ih =>
    rw [toSexp, toSexpList_eq_map]
    refine hround (by decide) (List.forall_mem_cons.mpr ⟨.atom (.bare (hplace h).isRun), ?_⟩)
    exact List.forall_mem_map.mpr ih
  | index _ _ _ ih ihi => exact hround (by decide) (by simpa using ⟨ih, ihi⟩)
  | attr _ _ _ ih ihm => exact hround (by decide) (by simpa using ⟨ih, ihm⟩)
  | link _ ih => exact ih
  | target _ ih => exact ih

/-! ### The expression can be read off the tree -/

/-- The leaf at the place of a value that the atom stands for. -/
def ofAtom (t : Text) : Expr :=
  match constants.find? (·.1 == t) with
  | some c => c.2
  | none =>
    if t.startsName then .ident t
    else match Reader.string t with
      | .took (some literal) _ => .string literal
      | _ => match t.floatLiteral? with
        | some literal => .float literal
        | none => match t.intLiteral? with
          | some literal => .int literal
          | none => .nodePath t

/-- What is called like none of the constants is none of them. -/
theorem find?_constants_eq_none {t : Text} (h : ∀ c ∈ constants, c.1 ≠ t) :
    constants.find? (·.1 == t) = none := by
  rw [List.find?_eq_none]
  intro c hc heq
  exact h c hc (beq_iff_eq.mp heq)

/-- A name that is no constant stands for itself. -/
theorem ofAtom_of_isValueName {name : Text} (h : name.IsValueName words) :
    ofAtom name = .ident name := by
  have hstart : name.startsName = true := h.isName.1
  simp only [ofAtom, find?_constants_eq_none h.not_constant, hstart, if_true]

/-- What does not start like a name is none of the constants. -/
theorem ofAtom_of_startsName_eq_false {t : Text} (h : t.startsName = false) :
    ofAtom t = match Reader.string t with
      | .took (some literal) _ => .string literal
      | _ => match t.floatLiteral? with
        | some literal => .float literal
        | none => match t.intLiteral? with
          | some literal => .int literal
          | none => .nodePath t := by
  have hconstant : constants.find? (·.1 == t) = none := by
    refine find?_constants_eq_none ?_
    rintro c hc rfl
    have hstart : c.1.startsName = true := (isName_of_mem_constants c hc).1
    rw [h] at hstart
    exact Bool.noConfusion hstart
  simp only [ofAtom, hconstant, h, Bool.false_eq_true, if_false]

/-- A string stands for its literal. -/
theorem ofAtom_string {literal : StringLiteral} (h : literal.IsValid) :
    ofAtom literal.write = .string literal := by
  have hstart : literal.write.startsName = false := by
    cases hquote : literal.quote <;> simp [StringLiteral.write, hquote] <;> rfl
  -- the reader takes the whole text, which is what the tree has as an atom
  have hstring : Reader.string literal.write = .took (some literal) literal.write.length := by
    simpa using Reader.string_append h []
  rw [ofAtom_of_startsName_eq_false hstart, hstring]

/-- A numeral starts neither like a name nor like a string. -/
theorem ofAtom_of_startsWith_isDigit {t : Text} (h : t.StartsWith CodeUnit.isDigit) :
    ofAtom t = match t.floatLiteral? with
      | some literal => .float literal
      | none => match t.intLiteral? with
        | some literal => .int literal
        | none => .nodePath t := by
  have hname : t.startsName = false :=
    h.startsName_eq_false fun _ => Phrase.isDigit_eq_false_of_isIdentifierStart
  have hquote : t.Avoids CodeUnit.isQuote := by
    refine h.avoids fun u hu => ?_
    rw [CodeUnit.isQuote, Bool.or_eq_true, beq_iff_eq, beq_iff_eq] at hu
    rcases hu with rfl | rfl <;> rfl
  rw [ofAtom_of_startsName_eq_false hname, Reader.string_eq_none hquote]

/-- The spelling of an integer is no fraction. -/
theorem ofAtom_int {literal : IntLiteral} (h : literal.IsNumeral) :
    ofAtom literal.raw = .int literal := by
  have hnil : Text.Avoids CodeUnit.isIdentifierChar [] := rfl
  have hfloat := Text.floatLiteral?_eq_none h hnil fun r hr => absurd hr (by simp)
  have hint := Text.intLiteral?_append h hnil
  rw [List.append_nil] at hfloat hint
  rw [ofAtom_of_startsWith_isDigit h.startsWith, hfloat, hint]

theorem ofAtom_float {literal : FloatLiteral} (h : literal.IsNumeral) :
    ofAtom literal.raw = .float literal := by
  have hfloat := Text.floatLiteral?_append h (Text.avoids_nil CodeUnit.isDigit)
  rw [List.append_nil] at hfloat
  rw [ofAtom_of_startsWith_isDigit h.startsWith, hfloat]

/-- The path of a node starts with a sign that nothing else starts with. -/
theorem ofAtom_nodePath {path : Text} (h : path.IsNodePath) : ofAtom path = .nodePath path := by
  obtain ⟨t, rfl⟩ : ∃ t, path = CodeUnit.dollar :: t := by
    cases h <;> exact ⟨_, rfl⟩
  have hstring : Reader.string (CodeUnit.dollar :: t) = .took none 0 := Reader.string_eq_none rfl
  -- neither a string nor a numeral starts with a dollar sign
  have hfloat : Text.floatLiteral? (CodeUnit.dollar :: t) = none := by
    rfl
  have hint : Text.intLiteral? (CodeUnit.dollar :: t) = none := by
    rfl
  rw [ofAtom_of_startsName_eq_false rfl, hstring, hfloat, hint]

end Expr

namespace Place

/-- The leaf at the place that the atom stands for; a member is never a constant. -/
def ofAtom (place : Place) (t : Text) : Expr :=
  match place with
  | .value | .target => Expr.ofAtom t
  | .link | .member => .ident t

/-- The place of the left side of an operator that stands at the place. -/
def ofLeft (place : Place) : BinaryOp → Place
  | .attr | .index => place.ofBase
  | _ => .value

/-- The place of the right side of an operator. -/
def ofRight : BinaryOp → Place
  | .attr => .member
  | _ => .value

/-- No part of what is read stands at the place of a target. -/
theorem ofLeft_ne_target {place : Place} (h : place ≠ .target) (op : BinaryOp) :
    place.ofLeft op ≠ .target := by
  revert h
  cases place <;> cases op <;> decide

theorem ofRight_ne_target (op : BinaryOp) : ofRight op ≠ .target := by
  cases op <;> decide

end Place

namespace Expr

variable {words : List Text} {place : Place} {e e' : Expr}

/-- A leaf is the one that its atom stands for. -/
theorem Fits.eq_ofAtom (h : e.Fits words place) (hplace : place ≠ .target) {t : Text}
    (hleaf : e.toSexp = .atom t) : e = place.ofAtom t := by
  induction h with
  | @constant c h =>
    simp only [constants, List.mem_cons, List.not_mem_nil, or_false] at h
    rcases h with rfl | rfl | rfl | rfl | rfl <;> obtain rfl := Sexp.atom.inj hleaf <;> rfl
  | int h => exact Sexp.atom.inj hleaf ▸ (ofAtom_int h).symm
  | float h => exact Sexp.atom.inj hleaf ▸ (ofAtom_float h).symm
  | string h => exact Sexp.atom.inj hleaf ▸ (ofAtom_string h).symm
  | nodePath h => exact Sexp.atom.inj hleaf ▸ (ofAtom_nodePath h).symm
  -- what a bare name stands for depends on its place
  | @ident place name hmember h =>
    obtain rfl := Sexp.atom.inj hleaf
    cases place with
    | value => exact (ofAtom_of_isValueName h).symm
    | link => rfl
    | member => exact absurd rfl hmember
    | target => exact absurd rfl hplace
  | link _ ih => exact ih (by decide) hleaf
  | target => exact absurd rfl hplace
  | _ => exact absurd hleaf (by simp [toSexp])

/-! An expression whose tree is a group is of the kind that the group belongs to. -/

/-- Square brackets belong to a list. -/
theorem exists_of_toSexp_eq_array {es : List Expr} (h : e.toSexp = (array es).toSexp) :
    ∃ es', e = .array es' ∧ toSexpList es' = toSexpList es := by
  cases e with
  | array es' => exact ⟨es', rfl, (Sexp.group.inj h).2⟩
  | boolean value => cases value <;> exact absurd h (by simp [toSexp])
  | _ => exact absurd h (by simp [toSexp])

theorem exists_of_toSexp_eq_object {ps : List (Expr × Expr)} (h : e.toSexp = (object ps).toSexp) :
    ∃ ps', e = .object ps' ∧ toSexpPairs ps' = toSexpPairs ps := by
  cases e with
  | object ps' => exact ⟨ps', rfl, Sexp.object.inj h⟩
  | boolean value => cases value <;> exact absurd h (by simp [toSexp])
  | _ => exact absurd h (by simp [toSexp])

/-- Round brackets belong to a call or to an operator, which the number of parts tells apart. -/
theorem exists_of_toSexp_eq_round {items : List Sexp} (h : e.toSexp = .group .round items) :
    (∃ name es, e = .call name es ∧ items = .atom "Call" :: .atom name :: toSexpList es) ∨
      (∃ op left right, e = .binary op left right ∧
        items = [.atom op.name, left.toSexp, right.toSexp]) ∨
      ∃ op operand, e = .unary op operand ∧ items = [.atom op.name, operand.toSexp] := by
  cases e with
  | call name es => exact .inl ⟨name, es, rfl, (Sexp.group.inj h).2.symm⟩
  | binary op left right => exact .inr (.inl ⟨op, left, right, rfl, (Sexp.group.inj h).2.symm⟩)
  | unary op operand => exact .inr (.inr ⟨op, operand, rfl, (Sexp.group.inj h).2.symm⟩)
  | boolean value => cases value <;> exact absurd h (by simp [toSexp])
  | _ => exact absurd h (by simp [toSexp])

/-- The group of a call is one of a call. -/
theorem exists_of_toSexp_eq_call {name : Text} {es : List Expr}
    (h : e.toSexp = (call name es).toSexp) :
    ∃ es', e = .call name es' ∧ toSexpList es' = toSexpList es := by
  rcases exists_of_toSexp_eq_round h with ⟨name', es', rfl, hitems⟩ |
    ⟨op, left, right, rfl, hitems⟩ | ⟨op, operand, rfl, hitems⟩
  · simp only [List.cons.injEq, Sexp.atom.injEq, true_and] at hitems
    obtain ⟨rfl, hes⟩ := hitems
    exact ⟨es', rfl, hes.symm⟩
  · -- `Call` is no name of an operator
    exact absurd (Sexp.atom.inj (List.cons.inj hitems).1).symm op.name_ne_call
  · exact absurd (Sexp.atom.inj (List.cons.inj hitems).1).symm op.name_ne_call

/-- An operator with two operands is told by its name. -/
theorem exists_of_toSexp_eq_binary {op : BinaryOp} {left right : Expr}
    (h : e.toSexp = (binary op left right).toSexp) :
    ∃ left' right', e = .binary op left' right' ∧ left'.toSexp = left.toSexp ∧
      right'.toSexp = right.toSexp := by
  rcases exists_of_toSexp_eq_round h with ⟨name', es', rfl, hitems⟩ |
    ⟨op', left', right', rfl, hitems⟩ | ⟨op', operand, rfl, hitems⟩
  · exact absurd (Sexp.atom.inj (List.cons.inj hitems).1) op.name_ne_call
  · simp only [List.cons.injEq, Sexp.atom.injEq, and_true] at hitems
    obtain ⟨hname, hleft, hright⟩ := hitems
    obtain rfl := BinaryOp.name_injective hname
    exact ⟨left', right', rfl, hleft.symm, hright.symm⟩
  · -- one operand is missing
    exact absurd hitems (by simp)

theorem exists_of_toSexp_eq_unary {op : UnaryOp} {operand : Expr}
    (h : e.toSexp = (unary op operand).toSexp) :
    ∃ operand', e = .unary op operand' ∧ operand'.toSexp = operand.toSexp := by
  rcases exists_of_toSexp_eq_round h with ⟨name', es', rfl, hitems⟩ |
    ⟨op', left', right', rfl, hitems⟩ | ⟨op', operand', rfl, hitems⟩
  · exact absurd (Sexp.atom.inj (List.cons.inj hitems).1) op.name_ne_call
  · exact absurd hitems (by simp)
  · simp only [List.cons.injEq, Sexp.atom.injEq, and_true] at hitems
    obtain ⟨hname, hoperand⟩ := hitems
    obtain rfl := UnaryOp.name_injective hname
    exact ⟨operand', rfl, hoperand.symm⟩

/-- The parts of the expression may stand at their places. -/
def PartsFit (words : List Text) (place : Place) : Expr → Prop
  | .array es | .call _ es => ∀ e ∈ es, e.Fits words .value
  | .object ps => ∀ p ∈ ps, p.1.Fits words .value ∧ p.2.Fits words .value
  | .unary _ operand => operand.Fits words .value
  | .binary op left right => left.Fits words (place.ofLeft op) ∧ right.Fits words (.ofRight op)
  | _ => True

/-- The parts of what fits at a place fit at their own. -/
theorem Fits.partsFit (h : e.Fits words place) : e.PartsFit words place := by
  induction h with
  | @constant c h =>
    simp only [constants, List.mem_cons, List.not_mem_nil, or_false] at h
    rcases h with rfl | rfl | rfl | rfl | rfl <;> trivial
  | int | float | string | nodePath | ident => trivial
  | array h => exact h
  | object hk hv => exact fun p hp => ⟨hk p hp, hv p hp⟩
  | unary h => exact h
  | @binary op left right hattr hindex hleft hright =>
    cases op with
    | attr => exact absurd rfl hattr
    | index => exact absurd rfl hindex
    | _ => exact ⟨hleft, hright⟩
  | call _ _ hes => exact hes
  | @index place base i hplace hbase hi =>
    cases place with
    | member => exact absurd rfl hplace
    | _ => exact ⟨hbase, hi⟩
  | attr _ hbase hm => exact ⟨hbase, hm⟩
  | @link e _ ih =>
    cases e with
    | binary op left right => cases op <;> exact ih
    | _ => exact ih
  -- a target is no place of its own: a part of it stands where it would stand in a target
  | @target e _ ih =>
    cases e with
    | binary op left right =>
      cases op with
      | attr | index => exact ⟨.target ih.1, ih.2⟩
      | _ => exact ih
    | _ => exact ih

mutual

/-- Of the expressions that may stand at a place, only this one has its tree. -/
theorem Fits.eq_of_toSexp_eq {place : Place} (hplace : place ≠ .target) :
    ∀ {e e' : Expr}, e.Fits words place → e'.Fits words place → e'.toSexp = e.toSexp → e' = e
  -- the group tells of which kind the other expression is, and the parts are equal by recursion
  | .array es, e', h, h', heq => by
    obtain ⟨es', rfl, hes⟩ := exists_of_toSexp_eq_array heq
    rw [Fits.eq_of_toSexpList_eq h.partsFit h'.partsFit hes]
  | .object ps, e', h, h', heq => by
    obtain ⟨ps', rfl, hps⟩ := exists_of_toSexp_eq_object heq
    rw [Fits.eq_of_toSexpPairs_eq h.partsFit h'.partsFit hps]
  | .call name es, e', h, h', heq => by
    obtain ⟨es', rfl, hes⟩ := exists_of_toSexp_eq_call heq
    rw [Fits.eq_of_toSexpList_eq h.partsFit h'.partsFit hes]
  | .binary op left right, e', h, h', heq => by
    obtain ⟨left', right', rfl, hleft, hright⟩ := exists_of_toSexp_eq_binary heq
    obtain ⟨hl, hr⟩ := h.partsFit
    obtain ⟨hl', hr'⟩ := h'.partsFit
    rw [Fits.eq_of_toSexp_eq (Place.ofLeft_ne_target hplace op) hl hl' hleft,
      Fits.eq_of_toSexp_eq (Place.ofRight_ne_target op) hr hr' hright]
  | .unary op operand, e', h, h', heq => by
    obtain ⟨operand', rfl, hoperand⟩ := exists_of_toSexp_eq_unary heq
    have hvalue : Place.value ≠ .target := by decide
    rw [Fits.eq_of_toSexp_eq hvalue h.partsFit h'.partsFit hoperand]
  | .null, e', h, h', heq | .boolean true, e', h, h', heq | .boolean false, e', h, h', heq
  | .int _, e', h, h', heq | .float _, e', h, h', heq | .string _, e', h, h', heq
  | .nodePath _, e', h, h', heq | .ident _, e', h, h', heq => by
    -- both leaves are what the one atom stands for
    rw [h.eq_ofAtom hplace rfl, h'.eq_ofAtom hplace heq]

theorem Fits.eq_of_toSexpList_eq : ∀ {es es' : List Expr}, (∀ e ∈ es, e.Fits words .value) →
    (∀ e ∈ es', e.Fits words .value) → toSexpList es' = toSexpList es → es' = es
  | [], [], _, _, _ => rfl
  | e :: es, e' :: es', h, h', heq => by
    have hvalue : Place.value ≠ .target := by decide
    obtain ⟨hhead, htail⟩ := List.cons.inj heq
    rw [List.forall_mem_cons] at h h'
    rw [Fits.eq_of_toSexp_eq hvalue h.1 h'.1 hhead, Fits.eq_of_toSexpList_eq h.2 h'.2 htail]

theorem Fits.eq_of_toSexpPairs_eq : ∀ {ps ps' : List (Expr × Expr)},
    (∀ p ∈ ps, p.1.Fits words .value ∧ p.2.Fits words .value) →
    (∀ p ∈ ps', p.1.Fits words .value ∧ p.2.Fits words .value) →
    toSexpPairs ps' = toSexpPairs ps → ps' = ps
  | [], [], _, _, _ => rfl
  | (key, value) :: ps, (key', value') :: ps', h, h', heq => by
    have hvalue : Place.value ≠ .target := by decide
    obtain ⟨hhead, htail⟩ := List.cons.inj heq
    obtain ⟨hkey, hval⟩ := Prod.mk.inj hhead
    rw [List.forall_mem_cons] at h h'
    obtain ⟨⟨hk, hv⟩, hps⟩ := h
    obtain ⟨⟨hk', hv'⟩, hps'⟩ := h'
    obtain rfl : key' = key := Fits.eq_of_toSexp_eq hvalue hk hk' hkey
    obtain rfl : value' = value := Fits.eq_of_toSexp_eq hvalue hv hv' hval
    rw [Fits.eq_of_toSexpPairs_eq hps hps' htail]

end

/-- Two expressions that may stand at a place are not written alike. -/
theorem Fits.eq_of_format_eq (h : e.Fits words place) (h' : e'.Fits words place)
    (hplace : place ≠ .target) (heq : e.format = e'.format) : e = e' := by
  -- the form is the text of a readable tree, which can be read back from it
  have htree : e.toSexp = e'.toSexp := by
    refine h.isReadable_toSexp.eq_of_write_eq h'.isReadable_toSexp ?_
    rw [write_toSexp, write_toSexp, heq]
  exact h'.eq_of_toSexp_eq hplace h htree

end Expr

/--
The prefix form loses nothing: two texts, read under whatever depth limits and with whatever behind
the expressions, are read as one expression if the expressions have one prefix form.
-/
theorem Script.expr_format_injective {s s' : Text} {depth depth' : Option Int} {e e' : Expr}
    {c c' : Cursor} {journal journal' : Journal}
    (h : run s depth Expression.expr = .finished e c journal)
    (h' : run s' depth' Expression.expr = .finished e' c' journal')
    (heq : e.format = e'.format) : e = e' := by
  have hfits : e.Fits ["not"] .value := Rule.areSound _ .expr _ _ _ _ _ _ h
  have hfits' : e'.Fits ["not"] .value := Rule.areSound _ .expr _ _ _ _ _ _ h'
  exact hfits.eq_of_format_eq hfits' (by decide) heq

/-- Two spellings of a chain whose last member is called like a constant. -/
theorem Script.expr_format_injective_chain :
    ∃ e e' c c' journal journal',
      run "a.b[1].null + 'x'" none Expression.expr = .finished e c journal ∧
      run "(a).b[ 1 ].null+'x'  # sum" (some 20) Expression.expr = .finished e' c' journal' ∧
      e.format = "(Add (Attr a (Attr (Index b 1) null)) 'x')" ∧ e.format = e'.format ∧ e = e' := by
  -- the kernel runs each text, from which the tree is known by its form only
  have hread : ∀ {s t : Text} {d : Option Int},
      (match run s d Expression.expr with
        | .finished e _ _ => some e.format
        | .failed _ _ => none) = some t →
      ∃ e c journal, run s d Expression.expr = .finished e c journal ∧ e.format = t := by
    intro s t d h
    split at h
    · next e c journal hrun => exact ⟨e, c, journal, hrun, Option.some.inj h⟩
    · exact absurd h (by simp)
  obtain ⟨e, c, journal, h, hform⟩ := hread (s := "a.b[1].null + 'x'") (d := none)
    (t := "(Add (Attr a (Attr (Index b 1) null)) 'x')") (by decide +kernel)
  obtain ⟨e', c', journal', h', hform'⟩ := hread (s := "(a).b[ 1 ].null+'x'  # sum")
    (d := some 20) (t := "(Add (Attr a (Attr (Index b 1) null)) 'x')") (by decide +kernel)
  have heq : e.format = e'.format := hform.trans hform'.symm
  exact ⟨e, e', c, c', journal, journal', h, h', hform, heq, expr_format_injective h h' heq⟩

end GDScript
