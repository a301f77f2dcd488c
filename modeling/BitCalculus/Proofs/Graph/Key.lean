import Mathlib.Data.Nat.Digits.Lemmas
import BitCalculus.Run.Cache

/-!
# Packed keys are injective

A packed number ends with its first byte below 128, so a sequence of packed numbers can be read
back although neither a length nor a separator is stored. Tables with packed keys therefore never
confuse two lists of numbers, and never two lists of natural slots or of machine words: different
captures have different keys, and so have environments of different values.
-/

namespace BitCalculus.Key

private theorem toNat_last {n : Nat} (h : n < 128) : n.toUInt8.toNat = n := by
  rw [UInt8.toNat_ofNat']
  omega

private theorem toNat_group (n : Nat) : (n % 128 + 128).toUInt8.toNat = n % 128 + 128 := by
  rw [UInt8.toNat_ofNat']
  omega

/-! ### Reading keys back -/

/-- The numbers that were packed into a key. A byte below 128 is the last one of its number; any
other byte puts its seven low bits below the number that the bytes after it begin with. -/
def unpack : Bytes → List Nat
  | [] => []
  | b :: bs =>
    if b.toNat < 128 then b.toNat :: unpack bs
    else match unpack bs with
      | [] => []
      | n :: ns => (b.toNat - 128 + 128 * n) :: ns

/-- A packed number is read back, whatever follows it. -/
theorem unpack_varint_append (n : Nat) (bs : Bytes) :
    unpack (varint n ++ bs) = n :: unpack bs := by
  induction n using Nat.strongRecOn with
  | ind n ih =>
    rw [varint]
    split
    · next h => rw [List.singleton_append, unpack, toNat_last h, if_pos h]
    · next h =>
      rw [List.cons_append, unpack, toNat_group, if_neg (by omega), ih (n / 128) (by omega)]
      dsimp only
      congr 1
      omega

/-- Packed numbers are read back, however many they are. -/
theorem unpack_pack (numbers : List Nat) : unpack (pack numbers) = numbers := by
  induction numbers with
  | nil => rfl
  | cons n ns ih =>
    rw [pack, List.flatMap_cons, unpack_varint_append]
    exact congrArg (n :: ·) ih

/-- Different lists of numbers have different keys. -/
theorem pack_inj {xs ys : List Nat} : pack xs = pack ys ↔ xs = ys :=
  (Function.LeftInverse.injective unpack_pack).eq_iff

/-! ### The bytes of a number -/

/-- The bytes hold the digits of a number to the base 128, the lowest first and as few as it takes.
The last byte is below 128 and all others are not. A 64-bit word takes up to ten bytes. -/
structure IsVarint (n : Nat) (bytes : Bytes) : Prop where
  digits : bytes.map (fun b ↦ b.toNat % 128) = if n = 0 then [0] else Nat.digits 128 n
  marks : ∃ front last, bytes = front ++ [last] ∧ (∀ b ∈ front, 128 ≤ b.toNat) ∧
    last.toNat < 128
  length_le : n < wordCount → bytes.length ≤ 10

private theorem digits_varint (n : Nat) :
    (varint n).map (fun b ↦ b.toNat % 128) = if n = 0 then [0] else Nat.digits 128 n := by
  induction n using Nat.strongRecOn with
  | ind n ih =>
    rw [varint]
    split
    · next h =>
      rw [List.map_singleton, toNat_last h, Nat.mod_eq_of_lt h]
      split
      · next hn => rw [hn]
      · next hn => exact (Nat.digits_of_lt 128 n hn h).symm
    · next h =>
      rw [List.map_cons, ih (n / 128) (by omega), toNat_group, if_neg (by omega),
        if_neg (by omega), Nat.digits_def' (n := n) (by omega) (by omega), Nat.add_mod_right,
        Nat.mod_mod]

private theorem marks_varint (n : Nat) :
    ∃ front last, varint n = front ++ [last] ∧ (∀ b ∈ front, 128 ≤ b.toNat) ∧
      last.toNat < 128 := by
  induction n using Nat.strongRecOn with
  | ind n ih =>
    rw [varint]
    split
    · next h => exact ⟨[], n.toUInt8, rfl, by simp, by rwa [toNat_last h]⟩
    · next h =>
      obtain ⟨front, last, he, marked, ends⟩ := ih (n / 128) (by omega)
      refine ⟨(n % 128 + 128).toUInt8 :: front, last, by rw [he, List.cons_append], ?_, ends⟩
      rw [List.forall_mem_cons, toNat_group]
      exact ⟨Nat.le_add_left _ _, marked⟩

theorem isVarint_varint (n : Nat) : IsVarint n (varint n) where
  digits := digits_varint n
  marks := marks_varint n
  length_le h := by
    have hl := congrArg List.length (digits_varint n)
    rw [List.length_map] at hl
    rw [hl]
    split
    · decide
    · rw [Nat.digits_length_le_iff (by decide)]
      exact h.trans (by decide)

/-! ### Slots -/

/-- A range of slots within which packed keys tell slots apart: the natural numbers, which are all
the slots that names are given, or the signed machine words, which are all the slots that can be
asked for. -/
inductive SlotRange where
  | natural
  | word

/-- The slot belongs to the range. -/
def SlotRange.Has : SlotRange → Int → Prop
  | natural, i => 0 ≤ i
  | word, i => fitsWord i

/-- Different slots of a range are different as unsigned words. -/
theorem SlotRange.word_inj {range : SlotRange} {i j : Int} (hi : range.Has i) (hj : range.Has j)
    (h : Key.word i = Key.word j) : i = j := by
  cases range with
  | natural =>
    have hi : 0 ≤ i := hi
    have hj : 0 ≤ j := hj
    rw [Key.word, Key.word, if_neg (by omega), if_neg (by omega)] at h
    omega
  | word =>
    simp only [Has, fitsWord, Bool.and_eq_true, decide_eq_true_eq] at hi hj
    simp only [wordHalf] at hi hj
    simp only [Key.word, wordCount] at h
    split at h <;> split at h <;> omega

/-- Different lists of slots of a range have different keys. -/
theorem SlotRange.ofSlots_inj {range : SlotRange} {xs ys : List Int} (hx : ∀ i ∈ xs, range.Has i)
    (hy : ∀ i ∈ ys, range.Has i) (h : ofSlots xs = ofSlots ys) : xs = ys := by
  have words := pack_inj.mp h
  clear h
  induction xs generalizing ys with
  | nil => exact (List.map_eq_nil_iff.mp words.symm).symm
  | cons x xs ih =>
    cases ys with
    | nil => simp at words
    | cons y ys =>
      rw [List.map_cons, List.map_cons, List.cons.injEq] at words
      rw [word_inj (hx x List.mem_cons_self) (hy y List.mem_cons_self) words.1,
        ih (fun i hi ↦ hx i (List.mem_cons_of_mem _ hi))
          (fun i hi ↦ hy i (List.mem_cons_of_mem _ hi)) words.2]

/-! ### Keys of captures and environments -/

/-- Every number is packed into its digits to the base 128, of which only the last one is unmarked.
Hence any two lists of signed machine words, and any two lists of values up to their numbers, have
the same key only if they are the same list. -/
theorem keys_tell_lists_apart :
    (∀ n, IsVarint n (varint n)) ∧
      (∀ xs ys : List Int, (∀ i ∈ xs, fitsWord i) → (∀ i ∈ ys, fitsWord i) →
        (ofSlots xs = ofSlots ys ↔ xs = ys)) ∧
      ∀ vs ws : List Value, Cache.environmentKey vs = Cache.environmentKey ws ↔
        vs.map Value.id = ws.map Value.id := by
  refine ⟨isVarint_varint, ?_, fun vs ws ↦ pack_inj⟩
  intro xs ys hx hy
  exact ⟨@SlotRange.ofSlots_inj .word xs ys hx hy, congrArg ofSlots⟩

/-- The least word takes ten bytes. A list is not its own beginning, and the two bytes of 128 are
not those of 0 and 1, neither as slots nor as the numbers of values. -/
theorem keys_tell_lists_apart_boundary :
    (varint (word (-0x8000000000000000))).length = 10 ∧
      (∀ i ∈ [-0x8000000000000000, 128], fitsWord i) ∧
      (∀ i ∈ [-0x8000000000000000, 0, 1], fitsWord i) ∧
      ofSlots [-0x8000000000000000, 128] ≠ ofSlots [-0x8000000000000000, 0, 1] ∧
      Cache.environmentKey [.probe 128] ≠ Cache.environmentKey [.probe 0, .probe 1] := by
  obtain ⟨-, slots, values⟩ := keys_tell_lists_apart
  have fits : ∀ i ∈ [-0x8000000000000000, 128], fitsWord i := by decide
  have fits' : ∀ i ∈ [-0x8000000000000000, 0, 1], fitsWord i := by decide
  refine ⟨by cbv, fits, fits', fun h ↦ ?_, fun h ↦ ?_⟩
  · have same := (slots _ _ fits fits').mp h
    simp at same
  · have same := (values _ _).mp h
    simp at same

end BitCalculus.Key
