import GDScript.Text.Basic

/-!
# Trimming

A blank unit is a space separator of Unicode, a tab, a vertical tab, a form feed, the byte order
mark or one of the four line terminators. The next line control U+0085, the zero width space U+200B
and U+180E are not blank.
-/

namespace GDScript

namespace CodeUnit

/-- White space or a line terminator. -/
def isBlank (u : CodeUnit) : Bool :=
  (0x09 ≤ u && u ≤ 0x0D) || u == 0x20 || u == 0xA0 || u == 0x1680 || (0x2000 ≤ u && u ≤ 0x200A)
    || u == 0x2028 || u == 0x2029 || u == 0x202F || u == 0x205F || u == 0x3000 || u == 0xFEFF

end CodeUnit

namespace Text

/-- The text without its leading blanks. -/
def trimStart (t : Text) : Text := t.dropWhile CodeUnit.isBlank

/-- The text without its trailing blanks. -/
def trimEnd (t : Text) : Text := (trimStart t.reverse).reverse

/-- The text without the blanks at its two ends. -/
def trim (t : Text) : Text := trimEnd (trimStart t)

end Text

end GDScript
