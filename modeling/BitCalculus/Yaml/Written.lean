import BitCalculus.Text.Utf8
import BitCalculus.Yaml.Scalar
import BitCalculus.Yaml.Value

/-!
# Writing texts as scalars

A text is written in the plainest style that reads back as the same text: without quotes, between
single quotes, between double quotes with escapes, or as a block of lines if it has several. Bytes
that are no UTF-8 are written in base 64.
-/

namespace BitCalculus.Yaml

/-- The styles of scalars. -/
inductive Style where
  | plain
  | single
  | double
  | literal
deriving DecidableEq

/-- The indentation of the lines of a block. -/
def blockIndent : Nat := 4

/-- Whether a character is written as it is; characters outside the first plane are not. -/
def isWritable (c : Char) : Bool :=
  let p := c.toNat
  p == 0x0A || (0x20 ≤ p && p ≤ 0x7E) || (0xA0 ≤ p && p ≤ 0xFFFD && p != 0xFEFF)

/-- The characters that cannot start a text without quotes. -/
def leadIndicators : List Char := "#,[]\x7b\x7d&*!|>'\"%@`".toList

/-- Whether a text starts in a way that has a meaning in YAML. -/
def startsWithIndicator : List Char → Bool
  | [] => false
  | c :: rest =>
    leadIndicators.contains c || ("?:-".toList.contains c && (rest.head?.all isBlank)) ||
      (c :: rest).take 3 == "---".toList || (c :: rest).take 3 == "...".toList

/-- Whether a colon before a blank or at the end, or a hash sign behind a blank, stands in a text
after its first character `previous`. -/
def holdsIndicator (previous : Char) : List Char → Bool
  | [] => false
  | c :: rest =>
    (c == ':' && rest.head?.all isBlank) ||
      (c == '#' && (isBlank previous || isBreak previous || previous.toNat == 0)) ||
      holdsIndicator c rest

/-- Whether a character that satisfies `p` is directly followed by one that satisfies `q`. -/
def holdsPair (p q : Char → Bool) : List Char → Bool
  | a :: b :: rest => (p a && q b) || holdsPair p q (b :: rest)
  | _ => false

/-- Whether a text can only be written between double quotes or as a block. -/
def needsEscapes (text : List Char) : Bool :=
  text.any (fun c => !isWritable c) || holdsPair isBreak (· == ' ') text ||
    holdsPair (· == ' ') isBreak text

/-- Whether a text can be written without quotes, as far as its characters go. -/
def plainAllowed (text : List Char) : Bool :=
  !(needsEscapes text || text.any isBreak || text.head? == some ' ' || text.getLast? == some ' ' ||
    startsWithIndicator text ||
    (match text with
      | [] => false
      | c :: rest => holdsIndicator c rest))

/-- Whether a text can be written as a block of lines. -/
def literalAllowed (text : List Char) : Bool :=
  !(text.any (fun c => !isWritable c && c != '\t') || text.getLast? == some ' ' ||
    holdsPair (· == ' ') isBreak text)

/-- The texts that other readers take for truth values. -/
def oldBooleans : List String :=
  ["y", "Y", "yes", "Yes", "YES", "on", "On", "ON", "n", "N", "no", "No", "NO", "off", "Off", "OFF"]

/-- Whether a text is one or more groups of at most two digits below sixty, each behind a colon,
and maybe a fraction. -/
def isSixtieths : Nat → Bytes → Bool
  | 0, _ => false
  | fuel + 1, text =>
    let ends (rest : Bytes) : Bool :=
      match rest with
      | [] => true
      | 46 :: rest => rest.all fun b => Reading.isDigit b || b == 95
      | rest => isSixtieths fuel rest
    match text with
    | 58 :: a :: rest =>
      Reading.isDigit a && (ends rest ||
        (a < 54 && match rest with
          | b :: rest => Reading.isDigit b && ends rest
          | [] => false))
    | _ => false

/-- Whether other readers take a text for a number in base sixty. -/
def isBaseSixty (text : Bytes) : Bool :=
  match (Reading.splitSign text).2 with
  | b :: rest =>
    Reading.isDigit b &&
      isSixtieths text.length (rest.dropWhile fun b => Reading.isDigit b || b == 95)
  | [] => false

/-- Whether a text without quotes is read back as a text. -/
def readsAsText (text : Bytes) : Bool :=
  Value.ofPlain text == .text && !isBaseSixty text && !oldBooleans.any fun w => lit w == text

/-- The style of a text; `wanted` tells whether it may go without quotes. -/
def styleOf (wanted : Bool) (text : List Char) : Style :=
  if text.contains '\n' then (if literalAllowed text then .literal else .double)
  else if !wanted then .double
  else if plainAllowed text then .plain
  else if needsEscapes text then .double
  else .single

/-- The hexadecimal digits of a number in upper case. -/
def upperHex (width n : Nat) : List Char :=
  ((Nat.toDigits 16 (Nat.pow 16 width + n % Nat.pow 16 width)).drop 1).map Char.toUpper

/-- The escape of a character between double quotes. -/
def escapeOf (c : Char) : List Char :=
  match c.toNat with
  | 0x00 => ['0']
  | 0x07 => ['a']
  | 0x08 => ['b']
  | 0x09 => ['t']
  | 0x0A => ['n']
  | 0x0B => ['v']
  | 0x0C => ['f']
  | 0x0D => ['r']
  | 0x1B => ['e']
  | 0x22 => ['"']
  | 0x5C => ['\\']
  | 0x85 => ['N']
  | 0x2028 => ['L']
  | 0x2029 => ['P']
  | n =>
    if n ≤ 0xFF then 'x' :: upperHex 2 n
    else if n ≤ 0xFFFF then 'u' :: upperHex 4 n
    else 'U' :: upperHex 8 n

/-- A text between double quotes. -/
def doubleQuoted (text : List Char) : List Char :=
  ['"'] ++ text.flatMap (fun c =>
    if !isWritable c || isBreak c || c == '"' || c == '\\' then '\\' :: escapeOf c else [c]) ++ ['"']

/-- The characters of a text with the lines after each line end indented. -/
def indented (afterBreak : Bool) : List Char → List Char
  | [] => []
  | c :: rest =>
    if isBreak c then c :: indented true rest
    else (if afterBreak then List.replicate blockIndent ' ' else []) ++ c :: indented false rest

/-- A text between single quotes, which are doubled inside. -/
def singleQuoted (text : List Char) : List Char :=
  let quote := Quote.single.char
  [quote] ++ (indented false text).flatMap (fun c => if c == quote then [c, c] else [c]) ++ [quote]

/-- What follows the bar of a block: the indentation if the block starts with a blank or a line
end, and how many line ends it ends with if that is not one. -/
def literalHints (text : List Char) : List Char :=
  let first := match text.head? with
    | some c => if c == ' ' || isBreak c then [Char.ofNat (48 + blockIndent)] else []
    | none => []
  let last := match text.reverse with
    | a :: b :: _ => if !isBreak a then ['-'] else if isBreak b then ['+'] else []
    | [a] => if isBreak a then ['+'] else ['-']
    | [] => ['-']
  first ++ last

/-- A text as a block of lines. A line end at its head takes the place of the one behind the bar,
and one at its end takes the place of the one behind the block. -/
def literalBlock (text : List Char) : List Char :=
  ['|'] ++ literalHints text ++ (if text.head?.any isBreak then [] else ['\n']) ++ indented true text

/-- A text in a given style. -/
def inStyle : Style → List Char → List Char
  | .plain, text => text
  | .single, text => singleQuoted text
  | .double, text => doubleQuoted text
  | .literal, text => literalBlock text

/-- The digit of base 64 with the given value. -/
def digit64 (n : Nat) : UInt8 :=
  if n < 26 then (65 + n).toUInt8
  else if n < 52 then (71 + n).toUInt8
  else if n < 62 then (n - 4).toUInt8
  else if n = 62 then 43 else 47

/-- The bytes of a text in base 64. -/
def base64 : Bytes → Bytes
  | [] => []
  | [a] => [digit64 (a.toNat / 4), digit64 (a.toNat % 4 * 16), 61, 61]
  | [a, b] =>
    [digit64 (a.toNat / 4), digit64 (a.toNat % 4 * 16 + b.toNat / 16), digit64 (b.toNat % 16 * 4), 61]
  | a :: b :: c :: rest =>
    digit64 (a.toNat / 4) :: digit64 (a.toNat % 4 * 16 + b.toNat / 16) ::
      digit64 (b.toNat % 16 * 4 + c.toNat / 64) :: digit64 (c.toNat % 64) :: base64 rest

/-- The length of the lines of a long text in base 64. -/
def base64Width : Nat := 70

/-- A text in lines of the given width, each with a line end. -/
def wrapLines (width : Nat) : Nat → Bytes → Bytes
  | 0, text => text
  | fuel + 1, text =>
    if text.isEmpty then [] else text.take width ++ [10] ++ wrapLines width fuel (text.drop width)

/-- The bytes of a text in base 64, in lines if there are many. -/
def base64Lines (text : Bytes) : Bytes :=
  let digits := base64 text
  if digits.length < base64Width then digits else wrapLines base64Width digits.length digits

/-- The characters of a valid UTF-8 text. -/
def characters (text : Bytes) : List Char :=
  text.glyphs.filterMap fun g => g.point.map Char.ofNat

/-- A text as the value of an entry of a mapping, with the line end behind it. -/
def written (text : Bytes) : Bytes :=
  let (tag, wanted, chars) :=
    if text.isValid then ([], readsAsText text, characters text)
    else ("!!binary ".toList, true, characters (base64Lines text))
  let style := styleOf wanted chars
  let out := inStyle style chars
  encode (tag ++ out ++ if style == .literal && out.getLast?.any isBreak then [] else ['\n'])

end BitCalculus.Yaml
