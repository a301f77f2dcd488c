import BitCalculus.Number.Word
import BitCalculus.Text.Bytes

/-!
# Packed keys

Lists of numbers are packed into byte strings before they serve as keys of a table. A number is
written in groups of seven bits, low group first; every byte but the last of a number has its high
bit set. Neither a length nor a separator is stored.
-/

namespace BitCalculus.Key

/-- A number in groups of seven bits, low group first. -/
def varint (n : Nat) : Bytes :=
  if n < 128 then [n.toUInt8] else (n % 128 + 128).toUInt8 :: varint (n / 128)
termination_by n
decreasing_by omega

/-- Several numbers one after another. -/
def pack (numbers : List Nat) : Bytes :=
  numbers.flatMap varint

/-- A signed machine word read as an unsigned one: negative numbers lie in the upper half of the
64-bit range. -/
def word (i : Int) : Nat :=
  if i < 0 then (i + wordCount).toNat else i.toNat

/-- The packed key of a list of signed machine words. -/
def ofSlots (slots : List Int) : Bytes :=
  pack (slots.map word)

end BitCalculus.Key
