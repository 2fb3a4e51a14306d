import GDScript.Binary64.Basic
import GDScript.Text.Numeral

/-!
# The shortest decimal of a double

`Decimal.shortest` looks for the fewest digits that read back: for one, two, … seventeen digits it
tries the two neighbours of the number on that decimal grid, and the first grid with a neighbour in
the interval of reals that round to the number decides; of two such neighbours the nearer one is
taken, and of two equally near ones the even one. `Decimal.write` lays the digits out.
-/

namespace GDScript

/-- The decimal `digits · 10 ^ exponent`. -/
structure Decimal where
  /-- The digits, read as one natural number. -/
  digits : Nat
  /-- The power of ten that scales them. -/
  exponent : Int
deriving DecidableEq, Repr, Inhabited

/-- Where a decimal is written with a plain decimal point. -/
structure DecimalStyle where
  /-- The point stands more than this many places left of the first digit only with an exponent. -/
  lowest : Int
  /-- The point stands more than this many places right of the first digit only with an exponent. -/
  highest : Int

namespace Decimal

/--
The decimal on the grid of `count` digits that stands for `n · 2 ^ s`, if one lies between
`low · 2 ^ s` and `high · 2 ^ s`; the bounds belong to the interval when `closed` holds. The leading
digit of the number stands for `10 ^ lead`.
-/
def onGrid? (n low high : Nat) (s : Int) (closed : Bool) (lead : Int) (count : Nat) :
    Option Decimal :=
  let p : Int := lead - count + 1
  let scale := twoPow s.toNat * tenPow (-p).toNat
  let den := twoPow (-s).toNat * tenPow p.toNat
  let below := n * scale / den
  let inside (d : Nat) : Bool :=
    if closed then low * scale ≤ d * den && d * den ≤ high * scale
    else low * scale < d * den && d * den < high * scale
  -- both neighbours may lie inside, and then the nearer one is taken, or the even one
  let belowGap := n * scale - below * den
  let aboveGap := (below + 1) * den - n * scale
  let preferBelow := belowGap < aboveGap || (belowGap == aboveGap && below % 2 == 0)
  match inside below, inside (below + 1) with
  | true, true => some ⟨if preferBelow then below else below + 1, p⟩
  | true, false => some ⟨below, p⟩
  | false, true => some ⟨below + 1, p⟩
  | false, false => none

/-- The power of ten that the leading digit of `num / den` stands for. -/
def leadingPower (num den : Nat) : Int :=
  if den ≤ num then ((Nat.toDigits 10 (num / den)).length : Int) - 1
  else -((Nat.toDigits 10 ((den - 1) / num)).length : Int)

/-- The shortest decimal that rounds to `m · 2 ^ q`. -/
def shortest (m : Nat) (q : Int) : Decimal :=
  if m = 0 then ⟨0, 0⟩
  else
    let s := q - 2
    let n := 4 * m
    let low := if m = twoPow 52 && -1074 < q then n - 1 else n - 2
    let lead := leadingPower (n * twoPow s.toNat) (twoPow (-s).toNat)
    let grids := (List.range 17).map (· + 1)
    (grids.findSome? (onGrid? n low (n + 2) s (m % 2 == 0) lead)).getD ⟨0, 0⟩

/-- The units of the digits, without the zeros at their end, and how many zeros those were. -/
def significant (d : Decimal) : Text × Nat :=
  let all := Text.ofNat d.digits
  let zeros := (all.reverse.takeWhile (· == 0x30)).length
  (all.take (all.length - zeros), zeros)

/-- So many zeros. -/
def zeros (count : Nat) : Text := List.replicate count 0x30

/-- The decimal in the given style: with a plain point, or as one digit, a fraction and `e±x`. -/
def write (style : DecimalStyle) (d : Decimal) : Text :=
  if d.digits = 0 then "0"
  else
    let (digits, dropped) := d.significant
    let point : Int := d.exponent + dropped + digits.length
    if digits.length ≤ point && point ≤ style.highest then
      digits ++ zeros (point.toNat - digits.length)
    else if 0 < point && point ≤ style.highest then
      digits.take point.toNat ++ "." ++ digits.drop point.toNat
    else if style.lowest < point && point ≤ 0 then
      "0." ++ zeros (-point).toNat ++ digits
    else
      let power := point - 1
      let fraction : Text := if digits.length = 1 then [] else "." ++ digits.drop 1
      digits.take 1 ++ fraction ++ (if power < 0 then "e-" else "e+") ++ Text.ofNat power.natAbs

end Decimal

namespace Binary64

/-- Numbers are written positionally from `1e-6` up to `1e21`. -/
def style : DecimalStyle := ⟨-6, 21⟩

/-- The text of a number: the shortest decimal, `Infinity` or `NaN`; zero has no sign. -/
def toText (x : Binary64) : Text :=
  match x.magnitude? with
  | none =>
    if x.fractionField ≠ 0 then "NaN" else if x.isNegative then "-Infinity" else "Infinity"
  | some (m, q) =>
    let digits := (Decimal.shortest m q).write style
    if x.isNegative && m ≠ 0 then "-" ++ digits else digits

end Binary64

end GDScript
