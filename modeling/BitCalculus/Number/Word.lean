/-!
# Machine words

Integers are kept exactly; where a limit of 64-bit words can be seen, it is one of the bounds here.
-/

namespace BitCalculus

/-- How many 64-bit words there are. -/
def wordCount : Nat := 0x10000000000000000

/-- The least number that is too large for a signed 64-bit word. -/
def wordHalf : Nat := 0x8000000000000000

/-- An integer reduced to the range of signed 64-bit words. -/
def wrap64 (i : Int) : Int :=
  i.bmod wordCount

/-- Whether an integer is a signed 64-bit word. -/
def fitsWord (i : Int) : Bool :=
  -wordHalf ≤ i && i < wordHalf

end BitCalculus
