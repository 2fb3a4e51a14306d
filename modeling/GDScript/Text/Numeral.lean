import GDScript.Text.Basic

/-!
# Numerals

`Text.ofNat` and `Text.ofInt` write a number in decimal; `Text.value` reads a run of digits in a
given base. The digits of every base up to sixteen are those of hexadecimal.
-/

namespace GDScript

namespace CodeUnit

/-- The number that a hexadecimal digit stands for; other units count as zero. -/
def digitValue (u : CodeUnit) : Nat :=
  if u.isDigit then u.toNat - 0x30
  else if 0x61 ≤ u && u ≤ 0x66 then u.toNat - 0x57
  else if 0x41 ≤ u && u ≤ 0x46 then u.toNat - 0x37
  else 0

end CodeUnit

namespace Text

/-- The decimal numeral of a natural number. -/
def ofNat (n : Nat) : Text := (Nat.toDigits 10 n).map fun c => UInt16.ofNat c.toNat

/-- The decimal numeral of an integer, with `-` before a negative one. -/
def ofInt : Int → Text
  | .ofNat n => ofNat n
  | .negSucc n => 0x2D :: ofNat (n + 1)

/-- The number that a run of digits denotes in the given base. -/
def value (base : Nat) (digits : Text) : Nat :=
  digits.foldl (fun n u => n * base + u.digitValue) 0

@[simp] theorem value_nil (base : Nat) : value base [] = 0 := rfl

/-- The last digit of a run counts once and the digits before it `base` times. -/
theorem value_concat (base : Nat) (s : Text) (u : CodeUnit) :
    value base (s ++ [u]) = value base s * base + u.digitValue := by
  simp [value]

end Text

end GDScript
