import BitCalculus.Text.Utf8
import BitCalculus.Text.Printable

/-!
# Quoted text

How a name is shown inside a message: between double quotes, with control characters, quotes and
backslashes escaped, printable characters kept, and everything else written by number. Hexadecimal
digits are lower case.
-/

namespace BitCalculus

/-- The hexadecimal digit of a number below sixteen. -/
def hexDigit (n : Nat) : UInt8 :=
  if n < 10 then (48 + n).toUInt8 else (87 + n).toUInt8

/-- The last `width` hexadecimal digits of a number. -/
def hexDigits : Nat → Nat → Bytes
  | 0, _ => []
  | width + 1, n => hexDigits width (n / 16) ++ [hexDigit (n % 16)]

namespace Quoted

/-- The letter of the two-byte escape of a code point, for the points that have one. -/
def escapeLetter : Nat → Option Char
  | 7 => some 'a'
  | 8 => some 'b'
  | 9 => some 't'
  | 10 => some 'n'
  | 11 => some 'v'
  | 12 => some 'f'
  | 13 => some 'r'
  | 34 => some '"'
  | 92 => some '\\'
  | _ => none

/-- How one code point is written: two digits below U+0080, four up to U+FFFF, eight above. -/
def encodeNumber (point : Nat) : Bytes :=
  if point < 0x80 then lit "\\x" ++ hexDigits 2 point
  else if point < 0x10000 then lit "\\u" ++ hexDigits 4 point
  else lit "\\U" ++ hexDigits 8 point

/-- How one glyph is written between the quotes. -/
def encodeGlyph (g : Glyph) : Bytes :=
  match g.point with
  | none => lit "\\x" ++ hexDigits 2 (g.bytes.headD 0).toNat
  | some point =>
    match escapeLetter point with
    | some letter => [92, letter.toNat.toUInt8]
    | none => if isPrintable point then g.bytes else encodeNumber point

end Quoted

/-- A text between double quotes, escaped where needed. -/
def Bytes.quoted (text : Bytes) : Bytes :=
  [34] ++ text.glyphs.flatMap Quoted.encodeGlyph ++ [34]

end BitCalculus
