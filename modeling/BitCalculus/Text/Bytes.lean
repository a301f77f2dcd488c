/-!
# Byte texts

Every text the calculus reads or prints is a sequence of bytes: program texts, file names and
messages that quote them may hold bytes that are no valid UTF-8. This module holds the type, the
bytes of a string literal, decimal numerals and right alignment.
-/

namespace BitCalculus

/-- A text as the sequence of its bytes. -/
abbrev Bytes := List UInt8

/-- The UTF-8 bytes of a string, used for the fixed parts of messages. -/
def lit (s : String) : Bytes :=
  s.toList.flatMap String.utf8EncodeChar

namespace Bytes

/-- The decimal digits of a natural number, most significant first, without leading zeros. -/
def ofNat (n : Nat) : Bytes :=
  (Nat.toDigits 10 n).map fun c => c.toNat.toUInt8

/-- The decimal numeral of an integer; a negative one starts with a minus sign. -/
def ofInt : Int → Bytes
  | .ofNat n => ofNat n
  | .negSucc n => 45 :: ofNat (n + 1)

/-- Blanks in front of a text until it has at least `width` bytes. -/
def alignRight (width : Nat) (text : Bytes) : Bytes :=
  List.replicate (width - text.length) 32 ++ text

/-- The lines of a text, each ended by a line feed. -/
def ofLines (lines : List Bytes) : Bytes :=
  lines.flatMap fun line => line ++ [10]

/-- The texts one after another with `separator` between neighbours. -/
def join (separator : Bytes) : List Bytes → Bytes
  | [] => []
  | [text] => text
  | text :: next :: rest => text ++ separator ++ join separator (next :: rest)

/-- Whether `text` ends with `ending`. -/
def endsWith (text ending : Bytes) : Bool :=
  ending.isSuffixOf text

/-- The text cut at the first `mark`: what stands before it and what stands after it. A text
without the mark is its own first part, and nothing follows. -/
def cut (mark : UInt8) (text : Bytes) : Bytes × Bytes :=
  (text.takeWhile (· != mark), (text.dropWhile (· != mark)).drop 1)

/-- The parts of a text between the occurrences of `mark`. -/
def splitOn (mark : UInt8) : Bytes → List Bytes
  | [] => [[]]
  | b :: rest =>
    if b = mark then [] :: splitOn mark rest
    else match splitOn mark rest with
      | [] => [[b]]
      | part :: parts => (b :: part) :: parts

end Bytes

end BitCalculus
