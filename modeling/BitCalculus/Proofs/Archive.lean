import Mathlib
import BitCalculus.Archive

/-!
# Compressed files are read back

Which bytes are an archive of which text is not known of the formats in general. Decoders deliver
the texts of archives if they read each of these archives to the text that it holds; what is proved
of loading compressed files only relies on this. The archives that are written here, in stored
blocks, are read back to their texts.
-/

namespace BitCalculus

/-- The decoders read every archive to the text that it holds, where `holds` tells which bytes are
an archive of which text. -/
def Decoders.Deliver [Decoders] (holds : Archive → Bytes → Bytes → Prop) : Prop :=
  ∀ archive raw text, holds archive raw text → archive.decode ⟨raw, none⟩ = .ok ⟨text, none⟩

namespace Gzip

/-- The length of a block is read back from its two digits. -/
theorem digits_two {n : Nat} (h : n ≤ blockCeiling) :
    ∃ low high, digits 2 n = [low, high] ∧ low.toNat + 256 * high.toNat = n := by
  refine ⟨_, _, rfl, ?_⟩
  simp only [blockCeiling, Nat.toUInt8_eq, UInt8.toNat_ofNat'] at h ⊢
  omega

/-- A block is read to its text, and what follows it is read next, unless it is the last one. -/
theorem readBlocks_block (isLast : Bool) (ended before rest : Bytes) {text : Bytes}
    (short : text.length ≤ blockCeiling) :
    readBlocks ended before (block isLast text ++ rest) =
      if isLast then (before ++ text, .ok rest) else readBlocks ended (before ++ text) rest := by
  obtain ⟨l₀, l₁, lengthDigits, length⟩ := digits_two short
  obtain ⟨n₀, n₁, inverseDigits, inverse⟩ := digits_two (Nat.sub_le blockCeiling text.length)
  have complement : text.length + (blockCeiling - text.length) = blockCeiling := by omega
  rw [block, lengthDigits, inverseDigits]
  cases isLast <;> simp [readBlocks, length, inverse, complement]

/-- The blocks of a text are read to the text, up to what follows them. -/
theorem readBlocks_blocks (ended before text rest : Bytes) :
    readBlocks ended before (blocks text ++ rest) = (before ++ text, .ok rest) := by
  induction text using blocks.induct generalizing before with
  | case1 text short =>
    rw [blocks, if_pos short, readBlocks_block true ended before rest short, if_pos rfl]
  | case2 text long ih =>
    have short : (text.take blockCeiling).length ≤ blockCeiling := List.length_take_le _ _
    rw [blocks, if_neg long, List.append_assoc, readBlocks_block false ended before _ short,
      if_neg Bool.false_ne_true, ih, List.append_assoc, List.take_append_drop]

/-- An archive is read to the text it was made of. -/
theorem unpack_pack (text : Bytes) : unpack ⟨pack text, none⟩ = .ok ⟨text, none⟩ := by
  have archive : pack text = head ++ (blocks text ++ trailer text) := List.append_assoc _ _ _
  have read := readBlocks_blocks (lit "unexpected EOF") [] text (trailer text)
  have length : (trailer text).length = 8 := rfl
  simp [unpack, archive, head, mark, read, length]

/-- The archives that are made here. -/
def Stored (archive : Archive) (raw text : Bytes) : Prop :=
  archive = .gz ∧ raw = pack text

/-- The decoders that are used by default deliver the texts of these archives. -/
theorem deliver_stored : Decoders.Deliver Stored := by
  rintro _ _ text ⟨rfl, rfl⟩
  exact unpack_pack text

end Gzip

end BitCalculus
