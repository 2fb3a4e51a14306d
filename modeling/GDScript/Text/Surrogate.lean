import GDScript.Text.Basic

/-!
# Surrogates

Two halves of a surrogate pair that follow each other stand for one character. `Text.toChars` reads
a text as characters; what becomes of a half without its counterpart is left to the caller.
-/

namespace GDScript

namespace CodeUnit

/-- The first half of a surrogate pair. -/
def isHighSurrogate (u : CodeUnit) : Bool := 0xD800 ≤ u && u ≤ 0xDBFF

/-- The second half of a surrogate pair. -/
def isLowSurrogate (u : CodeUnit) : Bool := 0xDC00 ≤ u && u ≤ 0xDFFF

/-- Half of a surrogate pair. -/
def isSurrogate (u : CodeUnit) : Bool := u.isHighSurrogate || u.isLowSurrogate

end CodeUnit

namespace Text

/-- The character that a surrogate pair stands for. -/
def pairChar (high low : CodeUnit) : Char :=
  Char.ofNat (0x10000 + (high.toNat - 0xD800) * 0x400 + (low.toNat - 0xDC00))

/-- The characters of a text; `lone` says what an unpaired surrogate becomes. -/
def toChars (lone : CodeUnit → List Char) : Text → List Char
  | [] => []
  | [u] => if u.isSurrogate then lone u else [Char.ofNat u.toNat]
  | u :: v :: rest =>
    if u.isHighSurrogate && v.isLowSurrogate then pairChar u v :: toChars lone rest
    else (if u.isSurrogate then lone u else [Char.ofNat u.toNat]) ++ toChars lone (v :: rest)

/-- The text as a string, with a replacement character for every unpaired surrogate. -/
def toStringLossy (t : Text) : String := String.ofList (t.toChars fun _ => [Char.ofNat 0xFFFD])

end Text

end GDScript
