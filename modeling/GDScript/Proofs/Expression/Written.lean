import GDScript.Grammar.Expression
import GDScript.Proofs.Lexeme.Numeral
import GDScript.Proofs.Lexeme.Operator
import GDScript.Proofs.Lexeme.Quoted

/-!
# How expressions are written

`Phrase.Written` relates a tree to every text that spells it in infix form: with either spelling of
an operator, with gaps of any width, and with parentheses where a part binds too loosely for its
place, or anywhere else. It is defined along the tree and does not mention how a text is read.

A place is given by a level: an expression of a level may stand wherever a looser one may. The
levels 0, 1 and 2 are those of the binary operators, 3 that of the operators before an operand, 4
that of values with members, 5 that of values with subscripts and 6 that of values and parentheses.

A text is written with room for a number of rules that are active at a time; more room does no harm
(`Phrase.Written.mono`).
-/

namespace GDScript

/-- The constants by the words they are spelled with. -/
def Expr.constants : List (Text × Expr) :=
  [("null", .null), ("true", .boolean true), ("True", .boolean true), ("false", .boolean false),
    ("False", .boolean false)]

/-- A name that may stand where a value is read: none of the constants and none of the words. -/
structure Text.IsValueName (words : List Text) (name : Text) : Prop where
  isName : name.IsName
  not_constant : ∀ c ∈ Expr.constants, c.1 ≠ name
  not_word : name ∉ words

/-- A piece of an expression. -/
inductive Phrase where
  /-- An expression that may stand at a place of the level, inside brackets or outside. -/
  | expr (inBrackets : Bool) (level : Nat) (e : Expr)
  /-- A member of which no member is taken: a name or a call, with subscripts. -/
  | link (e : Expr)
  /-- A member: links with points between them. -/
  | member (e : Expr)
  /-- The arguments of a call, with their parentheses. -/
  | arguments (es : List Expr)
  /-- What stands in a list behind the gap at its start; a comma may follow the last item or not. -/
  | items (mayEndInComma : Bool) (es : List Expr)
  /-- The pairs of an object, behind the gap at its start. -/
  | pairs (ps : List (Expr × Expr))

namespace Phrase

/-- The text spells the phrase, and reading it enters at most so many rules one inside the other. -/
inductive Written (words : List Text) : (room : Nat) → Phrase → Text → Prop where
  | constant {b room c} (h : c ∈ Expr.constants) : Written words (room + 1) (.expr b 6 c.2) c.1
  | int {b room} {literal : IntLiteral} (h : literal.IsNumeral)
      (hmax : literal.value ≤ Reader.greatestInt) :
      Written words (room + 2) (.expr b 6 (.int literal)) literal.raw
  | float {b room} {literal : FloatLiteral} (h : literal.IsNumeral) :
      Written words (room + 1) (.expr b 6 (.float literal)) literal.raw
  | string {b room} {literal : StringLiteral} (h : literal.IsValid) :
      Written words (room + 2) (.expr b 6 (.string literal)) literal.write
  | nodePath {b room path} (h : Text.IsNodePath path) :
      Written words (room + 2) (.expr b 6 (.nodePath path)) path
  | name {b room name} (h : Text.IsValueName words name) :
      Written words (room + 1) (.expr b 6 (.ident name)) name
  | call {b room name es t} (h : Text.IsValueName words name)
      (hes : Written words room (.arguments es) t) :
      Written words (room + 2) (.expr b 6 (.call name es)) (name ++ t)
  | array {b room es g t} (hg : Text.IsGap true g) (hes : Written words room (.items true es) t) :
      Written words (room + 2) (.expr b 6 (.array es)) ("[" ++ g ++ t ++ "]")
  | object {b room ps g t} (hg : Text.IsGap true g) (hps : Written words room (.pairs ps) t) :
      Written words (room + 2) (.expr b 6 (.object ps)) ("\x7b" ++ g ++ t ++ "\x7d")
  | parens {b room e g t g'} (hg : Text.IsGap true g) (he : Written words room (.expr true 0 e) t)
      (hg' : Text.IsGap true g') :
      Written words (room + 2) (.expr b 6 e) ("(" ++ g ++ t ++ g' ++ ")")
  /-- A value with a subscript, behind any other subscripts. -/
  | index {b room base s g i t g'} (hbase : Written words (room + 2) (.expr b 5 base) s)
      (hg : Text.IsGap true g) (hi : Written words room (.expr true 0 i) t)
      (hg' : Text.IsGap true g') :
      Written words (room + 2) (.expr b 5 (.binary .index base i))
        (s ++ "[" ++ g ++ t ++ g' ++ "]")
  /-- A value with a member; the members of that one belong to it. -/
  | attr {b room base s m t} (hbase : Written words room (.expr b 5 base) s)
      (hm : Written words room (.member m) t) :
      Written words room (.expr b 4 (.binary .attr base m)) (s ++ "." ++ t)
  /-- An operator before its operand; a gap separates a word from it. -/
  | unary {b room row g e t} (hrow : row ∈ Spelling.unary) (hg : Text.IsGap b g)
      (hword : row.isWord = true → g ≠ []) (he : Written words room (.expr b 3 e) t) :
      Written words (room + 1) (.expr b 3 (.unary row.op e)) (row.text ++ g ++ t)
  /-- A binary operator; what stands on its right binds more tightly than the operator. -/
  | binary {b room level row left s g g' right t} (hlevel : level ≤ 2)
      (hrow : row ∈ Spelling.binaryTable level)
      (hleft : Written words room (.expr b level left) s)
      (hg : Text.IsGap b g) (hne : g ≠ []) (hg' : Text.IsGap b g') (hne' : g' ≠ [])
      (hright : Written words room (.expr b (level + 1) right) t) :
      Written words room (.expr b level (.binary row.op left right))
        (s ++ g ++ row.text ++ g' ++ t)
  /-- What binds more tightly may stand where a looser expression may. -/
  | tighter {b room level e s} (hlevel : level ≤ 5)
      (h : Written words room (.expr b (level + 1) e) s) : Written words room (.expr b level e) s
  | linkName {room name} (h : Text.IsName name) : Written words (room + 1) (.link (.ident name)) name
  | linkCall {room name es t} (h : Text.IsName name) (hes : Written words room (.arguments es) t) :
      Written words (room + 1) (.link (.call name es)) (name ++ t)
  | linkIndex {room base s g i t g'} (hbase : Written words (room + 3) (.link base) s)
      (hg : Text.IsGap true g) (hi : Written words room (.expr true 0 i) t)
      (hg' : Text.IsGap true g') :
      Written words (room + 3) (.link (.binary .index base i)) (s ++ "[" ++ g ++ t ++ g' ++ "]")
  | memberLink {room e s} (h : Written words room (.link e) s) : Written words room (.member e) s
  | memberMore {room base s m t} (hbase : Written words (room + 1) (.link base) s)
      (hm : Written words room (.member m) t) :
      Written words (room + 1) (.member (.binary .attr base m)) (s ++ "." ++ t)
  | noArguments {room g} (hg : Text.IsGap true g) :
      Written words room (.arguments []) ("(" ++ g ++ ")")
  | arguments {room es g t} (hg : Text.IsGap true g) (hes : Written words room (.items false es) t) :
      Written words room (.arguments es) ("(" ++ g ++ t ++ ")")
  | noItems {room} : Written words room (.items true []) []
  | lastItem {room m e s g} (he : Written words room (.expr true 0 e) s) (hg : Text.IsGap true g) :
      Written words (room + 1) (.items m [e]) (s ++ g)
  | item {room m e s g g' es t} (he : Written words room (.expr true 0 e) s)
      (hg : Text.IsGap true g) (hg' : Text.IsGap true g')
      (hes : Written words (room + 1) (.items m es) t) :
      Written words (room + 1) (.items m (e :: es)) (s ++ g ++ "," ++ g' ++ t)
  | noPairs {room} : Written words room (.pairs []) []
  | lastPair {room k s h h' v t g} (hk : Written words room (.expr true 0 k) s)
      (hh : Text.IsGap true h) (hh' : Text.IsGap true h')
      (hv : Written words room (.expr true 0 v) t) (hg : Text.IsGap true g) :
      Written words (room + 2) (.pairs [(k, v)]) (s ++ h ++ ":" ++ h' ++ t ++ g)
  | pair {room k s h h' v t g g' ps w} (hk : Written words room (.expr true 0 k) s)
      (hh : Text.IsGap true h) (hh' : Text.IsGap true h')
      (hv : Written words room (.expr true 0 v) t) (hg : Text.IsGap true g)
      (hg' : Text.IsGap true g') (hps : Written words (room + 2) (.pairs ps) w) :
      Written words (room + 2) (.pairs ((k, v) :: ps))
        (s ++ h ++ ":" ++ h' ++ t ++ g ++ "," ++ g' ++ w)

variable {words : List Text} {room : Nat} {p : Phrase} {s : Text}

/-- With more room the same texts are written. -/
theorem Written.succ (h : Written words room p s) : Written words (room + 1) p s := by
  induction h with
  | constant h => exact .constant h
  | int h hmax => exact .int h hmax
  | float h => exact .float h
  | string h => exact .string h
  | nodePath h => exact .nodePath h
  | name h => exact .name h
  | call h _ ih => exact .call h ih
  | array hg _ ih => exact .array hg ih
  | object hg _ ih => exact .object hg ih
  | parens hg _ hg' ih => exact .parens hg ih hg'
  | index _ hg _ hg' ih ihi => exact .index ih hg ihi hg'
  | attr _ _ ih ihm => exact .attr ih ihm
  | unary hrow hg hword _ ih => exact .unary hrow hg hword ih
  | binary hlevel hrow _ hg hne hg' hne' _ ih ih' => exact .binary hlevel hrow ih hg hne hg' hne' ih'
  | tighter hlevel _ ih => exact .tighter hlevel ih
  | linkName h => exact .linkName h
  | linkCall h _ ih => exact .linkCall h ih
  | linkIndex _ hg _ hg' ih ihi => exact .linkIndex ih hg ihi hg'
  | memberLink _ ih => exact .memberLink ih
  | memberMore _ _ ih ihm => exact .memberMore ih ihm
  | noArguments hg => exact .noArguments hg
  | arguments hg _ ih => exact .arguments hg ih
  | noItems => exact .noItems
  | lastItem _ hg ih => exact .lastItem ih hg
  | item _ hg hg' _ ih ih' => exact .item ih hg hg' ih'
  | noPairs => exact .noPairs
  | lastPair _ hh hh' _ hg ih ih' => exact .lastPair ih hh hh' ih' hg
  | pair _ hh hh' _ hg hg' _ ih ih' ihs => exact .pair ih hh hh' ih' hg hg' ihs

theorem Written.mono {room' : Nat} (h : Written words room p s) (hroom : room ≤ room') :
    Written words room' p s := by
  induction hroom with
  | refl => exact h
  | step _ ih => exact ih.succ

/-- An expression may stand wherever a looser one may. -/
theorem Written.looser {b : Bool} {e : Expr} {level level' : Nat}
    (h : Written words room (.expr b level' e) s) (hlevel : level ≤ level') (hmax : level' ≤ 6) :
    Written words room (.expr b level e) s := by
  induction hlevel with
  | refl => exact h
  | step hle ih => exact ih (.tighter (by omega) h) (by omega)

end Phrase

end GDScript
