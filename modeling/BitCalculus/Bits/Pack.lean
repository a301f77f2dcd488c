import BitCalculus.Text.Bytes

/-!
# Bits and bytes

A byte stands for eight bits, the most significant bit first.
-/

namespace BitCalculus.Bits

/-- The eight bits of a byte, most significant bit first. -/
def unpack (b : UInt8) : List Bool :=
  [7, 6, 5, 4, 3, 2, 1, 0].map fun i => b.toNat.testBit i

@[simp] theorem length_unpack (b : UInt8) : (unpack b).length = 8 := by
  simp [unpack]

end BitCalculus.Bits
