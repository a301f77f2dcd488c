import BitCalculus.Text.Quoted

/-!
# JSON strings

Texts as string literals of JSON, safe inside markup: besides the quote, the backslash and control
characters, the characters `<`, `>` and `&` and the two line separators are written by number. A
stray byte becomes the replacement character, which encoders write as it stands or by number.
-/

namespace BitCalculus

namespace JsonString

/-- How the replacement character for a stray byte is written. Encoders of JSON differ in this, also
from one release to the next. -/
inductive Strays where
  | asCharacter
  | byNumber
deriving DecidableEq

/-- The letter of the short escape of a code point, for the points that have one. -/
def escapeLetter : Nat → Option Char
  | 8 => some 'b'
  | 9 => some 't'
  | 10 => some 'n'
  | 12 => some 'f'
  | 13 => some 'r'
  | 34 => some '"'
  | 92 => some '\\'
  | _ => none

/-- Whether a code point without a short escape is written by number. -/
def byNumber (point : Nat) : Bool :=
  point < 32 || point == 0x3C || point == 0x3E || point == 0x26 || point == 0x2028 ||
    point == 0x2029

/-- A code point written by number. -/
def numbered (point : Nat) : Bytes :=
  lit "\\u" ++ hexDigits 4 point

/-- How a stray byte is written. -/
def Strays.encode : Strays → Bytes
  | asCharacter => encodePoint replacementPoint
  | byNumber => numbered replacementPoint

/-- How one glyph is written inside the literal. -/
def encodeGlyph (strays : Strays) (g : Glyph) : Bytes :=
  match g.point with
  | none => strays.encode
  | some point =>
    match escapeLetter point with
    | some letter => [92, letter.toNat.toUInt8]
    | none => if byNumber point then numbered point else g.bytes

end JsonString

/-- A text as a JSON string literal. -/
def Bytes.jsonString (strays : JsonString.Strays) (text : Bytes) : Bytes :=
  [34] ++ text.glyphs.flatMap (JsonString.encodeGlyph strays) ++ [34]

end BitCalculus
