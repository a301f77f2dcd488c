import BitCalculus.Text.Utf8
import BitCalculus.Yaml.Problem

/-!
# Characters of a YAML text and a place in it

A YAML text is decoded as a whole before it is split into tokens. A cursor is a place in the decoded
text: what is still to be read, and where that stands.
-/

namespace BitCalculus.Yaml

/-- Whether a code point may stand in a YAML text. -/
def isAllowed (point : Nat) : Bool :=
  point == 0x09 || point == 0x0A || point == 0x0D || (0x20 ≤ point && point ≤ 0x7E) ||
    point == 0x85 || (0xA0 ≤ point && point ≤ 0xD7FF) ||
    (0xE000 ≤ point && point ≤ 0xFFFD && point != 0xFEFF) || 0x10000 ≤ point

/-- How many bytes a character has, by its first byte. -/
def characterWidth (first : UInt8) : Option Nat :=
  if first < 0x80 then some 1
  else if first < 0xC0 then none
  else if first < 0xE0 then some 2
  else if first < 0xF0 then some 3
  else if first < 0xF8 then some 4
  else none

/-- The smallest code point that needs as many bytes. -/
def smallestOfWidth : Nat → Nat
  | 2 => 0x80
  | 3 => 0x800
  | 4 => 0x10000
  | _ => 0

/-- The character that starts with `first`, if the next bytes complete it. -/
def decodeCharacter (first : UInt8) (rest : Bytes) : Except Problem (Nat × Nat) :=
  match characterWidth first with
  | none => .error .badLeadingByte
  | some width =>
    let tail := rest.take (width - 1)
    if tail.length < width - 1 then .error .incompleteCharacter
    else if !tail.all Glyph.isTail then .error .badTrailingByte
    else
      let lead := if width = 1 then first.toNat else first.toNat % Nat.pow 2 (7 - width)
      let point := tail.foldl (fun n b => n * 64 + b.toNat % 64) lead
      if point < smallestOfWidth width then .error .overlongCharacter
      else if 0xD800 ≤ point ∧ point ≤ 0xDFFF ∨ 0x10FFFF < point then .error .badCodePoint
      else if isAllowed point then .ok (point, width - 1)
      else .error .controlCharacter

/-- The characters of a text. -/
def decodeFrom : Bytes → Except Problem (List Char)
  | [] => .ok []
  | first :: rest =>
    match decodeCharacter first rest with
    | .error problem => .error problem
    | .ok (point, more) => (decodeFrom (rest.drop more)).map (Char.ofNat point :: ·)
termination_by text => text.length
decreasing_by rw [List.length_drop, List.length_cons]; omega

/-- The characters of a text without the byte order mark that it may start with. -/
def decode : Bytes → Except Problem (List Char)
  | 0xEF :: 0xBB :: 0xBF :: rest => decodeFrom rest
  | text => decodeFrom text

/-- The UTF-8 bytes of characters. -/
def encode (text : List Char) : Bytes :=
  text.flatMap String.utf8EncodeChar

/-- Whether a character separates words within a line. -/
def isBlank (c : Char) : Bool :=
  c == ' ' || c == '\t'

/-- Whether a character ends a line. -/
def isBreak (c : Char) : Bool :=
  c == '\r' || c == '\n' || c == '\u0085' || c == '\u2028' || c == '\u2029'

/-- Whether what comes next is a blank, the end of a line or the end of the text. -/
def isGap : Option Char → Bool
  | none => true
  | some c => isBlank c || isBreak c

/-- The character that stands for a line end in the value of a scalar. -/
def normalBreak (c : Char) : Char :=
  if c == '\u2028' || c == '\u2029' then c else '\n'

/-- A place in a text, counted from zero. -/
structure Mark where
  index : Nat := 0
  line : Nat := 0
  column : Nat := 0
deriving DecidableEq

namespace Mark

/-- The place `n` characters later on the same line. -/
def right (m : Mark) (n : Nat) : Mark :=
  ⟨m.index + n, m.line, m.column + n⟩

/-- The start of the next line after a line end of `n` characters. -/
def down (m : Mark) (n : Nat) : Mark :=
  ⟨m.index + n, m.line + 1, 0⟩

end Mark

/-- A place in a text and what is still to be read from there. -/
structure Cursor where
  rest : List Char
  mark : Mark := {}

namespace Cursor

/-- Moves over `n` characters of the same line. -/
def skip (c : Cursor) (n : Nat) : Cursor :=
  ⟨c.rest.drop n, c.mark.right n⟩

/-- Whether a line starts here with three times the given character and a gap after them. -/
def atMarker (c : Cursor) (sign : Char) : Bool :=
  c.mark.column == 0 && c.rest.take 3 == [sign, sign, sign] && isGap c.rest[3]?

/-- Whether a document starts or ends here. -/
def atDocument (c : Cursor) : Bool :=
  c.atMarker '-' || c.atMarker '.'

end Cursor

/-- Whether the blanks and line ends at the head of a text lead to a comment. -/
def leadsToComment (text : List Char) : Bool :=
  (text.dropWhile fun c => isBlank c || isBreak c).head? == some '#'

/-- The place of the next token after blanks, line ends and comments, and whether a key may start
there. A tab is only passed over inside brackets, where no key may start, and between comments
(`lenient`). -/
def toToken (inFlow keyAllowed inComment lenient : Bool) (mark : Mark) :
    List Char → Bool × Cursor
  | [] => (keyAllowed, ⟨[], mark⟩)
  | '\r' :: '\n' :: rest =>
    toToken inFlow (!inFlow || keyAllowed) false
      (if inComment then leadsToComment rest else lenient) (mark.down 2) rest
  | c :: rest =>
    if isBreak c then
      toToken inFlow (!inFlow || keyAllowed) false
        (if inComment then leadsToComment rest else lenient) (mark.down 1) rest
    else if inComment then toToken inFlow keyAllowed true lenient (mark.right 1) rest
    else if c == '#' then toToken inFlow keyAllowed true false (mark.right 1) rest
    else if c == ' ' || (c == '\t' && (inFlow || !keyAllowed || lenient)) then
      toToken inFlow keyAllowed false lenient (mark.right 1) rest
    else (keyAllowed, ⟨c :: rest, mark⟩)

end BitCalculus.Yaml
