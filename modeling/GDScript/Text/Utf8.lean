import GDScript.Text.Basic

/-!
# Reading bytes as text

`Text.ofUtf8` decodes UTF-8. Every maximal sequence of bytes that begins a character and cannot be
continued becomes one replacement character, and so does every byte that begins none; nothing else
is lost, and a byte order mark is kept.
-/

namespace GDScript

/-- A character of which only the first bytes have been read. -/
structure PartialChar where
  /-- So many bytes are still to come, besides the next one. -/
  owed : Nat
  /-- The least next byte. -/
  low : UInt8
  /-- The greatest next byte. -/
  high : UInt8
  /-- The bits that have been read. -/
  bits : Nat
deriving DecidableEq, Repr

namespace Text

/-- What stands for bytes that are no character. -/
def replacement : Text := [0xFFFD]

/-- What the first byte of a character gives: units, or a character to be continued. -/
def ofFirstByte (b : UInt8) : Text × Option PartialChar :=
  let begun (owed bits : Nat) (low high : UInt8) : Text × Option PartialChar :=
    ([], some ⟨owed, low, high, b.toNat % bits⟩)
  if b ≤ 0x7F then ([UInt16.ofNat b.toNat], none)
  else if b < 0xC2 then (replacement, none)
  else if b ≤ 0xDF then begun 0 0x20 0x80 0xBF
  else if b == 0xE0 then begun 1 0x10 0xA0 0xBF
  else if b == 0xED then begun 1 0x10 0x80 0x9F
  else if b ≤ 0xEF then begun 1 0x10 0x80 0xBF
  else if b == 0xF0 then begun 2 0x08 0x90 0xBF
  else if b == 0xF4 then begun 2 0x08 0x80 0x8F
  else if b ≤ 0xF3 then begun 2 0x08 0x80 0xBF
  else (replacement, none)

/-- The text of a sequence of bytes that continues a character, if one has begun. -/
def ofUtf8From : Option PartialChar → List UInt8 → Text
  | none, [] => []
  | some _, [] => replacement
  | none, b :: rest =>
    let (units, next) := ofFirstByte b
    units ++ ofUtf8From next rest
  | some p, b :: rest =>
    if p.low ≤ b && b ≤ p.high then
      let bits := p.bits * 64 + b.toNat % 64
      match p.owed with
      | 0 => ofChar (Char.ofNat bits) ++ ofUtf8From none rest
      | owed + 1 => ofUtf8From (some ⟨owed, 0x80, 0xBF, bits⟩) rest
    else
      let (units, next) := ofFirstByte b
      replacement ++ units ++ ofUtf8From next rest

/-- The text that a sequence of bytes encodes. -/
def ofUtf8 (bytes : List UInt8) : Text := ofUtf8From none bytes

end Text

end GDScript
