import BitCalculus.Text.Glyph

/-!
# Encoding code points

The UTF-8 bytes of a code point, the replacement character that stands in for stray bytes, and the
blanks that frame a text.
-/

namespace BitCalculus

/-- The code point that stands for a byte without meaning. -/
def replacementPoint : Nat := 0xFFFD

/-- The UTF-8 bytes of a code point; a surrogate or a number above U+10FFFF is written as the
replacement character. -/
def encodePoint (point : Nat) : Bytes :=
  if point < 0x80 then [point.toUInt8]
  else if point < 0x800 then [(0xC0 + point / 64).toUInt8, (0x80 + point % 64).toUInt8]
  else if 0xD800 ≤ point ∧ point ≤ 0xDFFF ∨ 0x10FFFF < point then [0xEF, 0xBF, 0xBD]
  else if point < 0x10000 then
    [(0xE0 + point / 4096).toUInt8, (0x80 + point / 64 % 64).toUInt8, (0x80 + point % 64).toUInt8]
  else
    [(0xF0 + point / 262144).toUInt8, (0x80 + point / 4096 % 64).toUInt8,
      (0x80 + point / 64 % 64).toUInt8, (0x80 + point % 64).toUInt8]

/-- Whether a code point is white space. -/
def isBlank (point : Nat) : Bool :=
  (9 ≤ point && point ≤ 13) || point == 0x20 || point == 0x85 || point == 0xA0 ||
    point == 0x1680 || (0x2000 ≤ point && point ≤ 0x200A) || point == 0x2028 ||
    point == 0x2029 || point == 0x202F || point == 0x205F || point == 0x3000

/-- Whether a glyph is white space; a stray byte is not. -/
def Glyph.isBlank (g : Glyph) : Bool :=
  match g.point with
  | some point => BitCalculus.isBlank point
  | none => false

namespace Bytes

/-- The text without the white space at its two ends. -/
def trim (text : Bytes) : Bytes :=
  ofGlyphs ((text.glyphs.dropWhile Glyph.isBlank).reverse.dropWhile Glyph.isBlank).reverse

/-- Whether the text is valid UTF-8. -/
def isValid (text : Bytes) : Bool :=
  text.glyphs.all fun g => g.point.isSome

end Bytes

end BitCalculus
