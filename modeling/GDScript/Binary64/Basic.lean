/-!
# Double precision numbers

A number is its 64 bits. `Binary64.ofDecimal` is the double nearest to a decimal, a tie going to the
even neighbour, and `Binary64.magnitude?` reads a finite number back as `m · 2 ^ q`. Everything is
computed in `Nat` and `Int`.
-/

namespace GDScript

/-- A double precision floating point number, given by its bits. -/
structure Binary64 where
  /-- Sign, eleven bits of exponent, fifty-two bits of fraction. -/
  bits : UInt64
deriving DecidableEq, Repr, Inhabited

/-- A power of two. -/
def twoPow (k : Nat) : Nat := Nat.pow 2 k

/-- A power of ten. -/
def tenPow (k : Nat) : Nat := Nat.pow 10 k

/-- The quotient of two naturals rounded to the nearest natural, a tie going to the even one. -/
def roundDiv (num den : Nat) : Nat :=
  let q := num / den
  let r := num % den
  if 2 * r < den then q else if den < 2 * r then q + 1 else q + q % 2

namespace Binary64

/-- The bits of positive infinity. -/
def infinityBits : Nat := 0x7FF * twoPow 52

/-- The quotient `num / den` is at least `2 ^ k`. -/
def reaches (num den : Nat) (k : Int) : Bool := den * twoPow k.toNat ≤ num * twoPow (-k).toNat

/--
The bits of the double nearest to `num / den`. The spacing of the doubles around the quotient is
`2 ^ e`, where `e` is at least `-1074`; the quotient in units of that spacing, rounded, is the
significand, and a significand that rounds up to the next power of two carries into the exponent.
-/
def nearestBits (num den : Nat) : Nat :=
  if num = 0 then 0
  else
    let k : Int := (num.log2 : Int) - (den.log2 : Int)
    let e : Int := max (if reaches num den k then k - 52 else k - 53) (-1074)
    let significand := roundDiv (num * twoPow (-e).toNat) (den * twoPow e.toNat)
    min ((e + 1074).toNat * twoPow 52 + significand) infinityBits

/-- The double nearest to `digits · 10 ^ exponent`. -/
def ofDecimal (digits : Nat) (exponent : Int) : Binary64 :=
  let magnitude := ((Nat.toDigits 10 digits).length : Int) + exponent
  if digits = 0 || magnitude < -330 then ⟨0⟩
  else if 310 < magnitude then ⟨UInt64.ofNat infinityBits⟩
  else ⟨UInt64.ofNat (nearestBits (digits * tenPow exponent.toNat) (tenPow (-exponent).toNat))⟩

/-- The sign bit is set. -/
def isNegative (x : Binary64) : Bool := twoPow 63 ≤ x.bits.toNat

/-- The exponent field. -/
def exponentField (x : Binary64) : Nat := x.bits.toNat / twoPow 52 % twoPow 11

/-- The fraction field. -/
def fractionField (x : Binary64) : Nat := x.bits.toNat % twoPow 52

/-- For a finite number, `m` and `q` such that its absolute value is `m · 2 ^ q`. -/
def magnitude? (x : Binary64) : Option (Nat × Int) :=
  if x.exponentField = 0x7FF then none
  else if x.exponentField = 0 then some (x.fractionField, -1074)
  else some (twoPow 52 + x.fractionField, (x.exponentField : Int) - 1075)

/-- The number as an integer, when it is one. -/
def toInt? (x : Binary64) : Option Int :=
  match x.magnitude? with
  | none => none
  | some (m, q) =>
    if m * twoPow q.toNat % twoPow (-q).toNat = 0 then
      let n : Int := ((m * twoPow q.toNat / twoPow (-q).toNat : Nat) : Int)
      some (if x.isNegative then -n else n)
    else none

end Binary64

end GDScript
