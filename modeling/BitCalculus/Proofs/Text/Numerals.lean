import Mathlib
import BitCalculus.Number.Reading

/-!
# Numerals

A numeral consists of decimal digits, with a minus sign in front of a negative number. So it ends
where another byte follows, and what it says can be read off it again.
-/

namespace BitCalculus

open Reading (isDigit digits)

/-! ### Digits -/

/-- The byte of a decimal digit and its value. -/
private theorem isDigit_byte {c : Char} (h : c.isDigit) :
    isDigit c.toNat.toUInt8 ∧ Reading.digitValue c.toNat.toUInt8 = some (c.toNat - 48) ∧
      c.toNat - 48 < 10 := by
  have bounds : 48 ≤ c.toNat ∧ c.toNat ≤ 57 := by
    simpa [Char.isDigit, UInt32.le_iff_toNat_le] using h
  obtain ⟨low, high⟩ := bounds
  generalize c.toNat = n at low high
  interval_cases n <;> decide

theorem Bytes.isDigit_of_mem_ofNat {n : Nat} {b : UInt8} (h : b ∈ Bytes.ofNat n) : isDigit b := by
  obtain ⟨c, hc, rfl⟩ := List.mem_map.mp h
  exact (isDigit_byte (Nat.isDigit_of_mem_toDigits (by decide) (by decide) hc)).1

theorem Bytes.not_mem_ofNat {b : UInt8} (h : isDigit b = false) (n : Nat) : b ∉ Bytes.ofNat n := by
  intro hb
  rw [isDigit_of_mem_ofNat hb] at h
  cases h

theorem Bytes.ofNat_ne_nil (n : Nat) : Bytes.ofNat n ≠ [] := by
  simp [Bytes.ofNat, Nat.toDigits_ne_nil]

namespace Reading

/-- Reading digit by digit gives the number that the digits denote. -/
private theorem foldl_digits {step : Option Nat → UInt8 → Option Nat}
    (hs : ∀ (n : Nat) (c : Char), c.isDigit →
      step (some n) c.toNat.toUInt8 = some (10 * n + (c.toNat - 48)))
    {cs : List Char} (h : ∀ c ∈ cs, c.isDigit) (n : Nat) :
    (cs.map fun c => c.toNat.toUInt8).foldl step (some n) = some (Nat.ofDigitChars 10 cs n) := by
  induction cs generalizing n with
  | nil => rfl
  | cons c cs ih =>
    obtain ⟨first, rest⟩ := List.forall_mem_cons.mp h
    rw [List.map_cons, List.foldl_cons, hs n c first, ih rest, Nat.ofDigitChars_cons]
    rfl

theorem digits_ofNat (n : Nat) : digits 10 (Bytes.ofNat n) = some n := by
  have all : ∀ c ∈ Nat.toDigits 10 n, c.isDigit := fun c hc ↦
    Nat.isDigit_of_mem_toDigits (by decide) (by decide) hc
  rw [digits, if_neg (by simpa using Bytes.ofNat_ne_nil n), Bytes.ofNat, foldl_digits ?_ all,
    Nat.ofDigitChars_toDigits (by decide) (by decide)]
  intro n c hc
  obtain ⟨-, value, small⟩ := isDigit_byte hc
  simp only [value, if_pos small, Nat.mul_comm]

/-! ### Signed numerals -/

/-- The integer that a decimal numeral denotes. -/
def numeral : Bytes → Option Int
  | 45 :: text => (digits 10 text).map fun n => -n
  | text => (digits 10 text).map fun n => n

/-- Whether a byte may stand in a numeral. -/
def isNumeral (b : UInt8) : Bool :=
  isDigit b || b == 45

end Reading

open Reading (numeral isNumeral)

theorem Bytes.isNumeral_of_mem_ofInt {i : Int} {b : UInt8} (h : b ∈ Bytes.ofInt i) :
    isNumeral b := by
  cases i with
  | ofNat n => simp [isNumeral, isDigit_of_mem_ofNat h]
  | negSucc n =>
    rcases List.mem_cons.mp h with rfl | h
    · decide
    · simp [isNumeral, isDigit_of_mem_ofNat h]

theorem Bytes.not_mem_ofInt {b : UInt8} (h : isNumeral b = false) (i : Int) :
    b ∉ Bytes.ofInt i := by
  intro hb
  rw [isNumeral_of_mem_ofInt hb] at h
  cases h

theorem Bytes.ofInt_ne_nil (i : Int) : Bytes.ofInt i ≠ [] := by
  cases i with
  | ofNat n => exact ofNat_ne_nil n
  | negSucc n => exact List.cons_ne_nil _ _

theorem Reading.numeral_ofInt (i : Int) : numeral (Bytes.ofInt i) = some i := by
  cases i with
  | ofNat n =>
    obtain ⟨b, text, h⟩ := List.exists_cons_of_ne_nil (Bytes.ofNat_ne_nil n)
    -- A digit is no minus sign.
    have digit : b ≠ 45 := by
      rintro rfl
      have : isDigit 45 := Bytes.isDigit_of_mem_ofNat (n := n) (by rw [h]; exact List.mem_cons_self)
      exact absurd this (by decide)
    have read := digits_ofNat n
    rw [h] at read
    rw [Bytes.ofInt, h, numeral, read]
    · rfl
    · simp [digit]
  | negSucc n =>
    rw [Bytes.ofInt, numeral, digits_ofNat]
    rfl

/-! ### Numerals in front of a text -/

namespace Reading

/-- No byte that satisfies `p` comes first. -/
def Breaks (p : UInt8 → Bool) (rest : Bytes) : Prop :=
  ∀ b ∈ rest.head?, p b = false

theorem breaks_nil (p : UInt8 → Bool) : Breaks p [] := by
  simp [Breaks]

theorem breaks_cons {p : UInt8 → Bool} {b : UInt8} (h : p b = false) (rest : Bytes) :
    Breaks p (b :: rest) := by
  simp [Breaks, h]

/-- The bytes in front of a text that satisfy `p`, read by `f`, and what follows them. -/
def stretch {α : Type} (p : UInt8 → Bool) (f : Bytes → Option α) (text : Bytes) :
    Option (α × Bytes) :=
  (f (text.takeWhile p)).map (·, text.dropWhile p)

theorem stretch_append {α : Type} {p : UInt8 → Bool} {f : Bytes → Option α} {text rest : Bytes}
    {x : α} (all : ∀ b ∈ text, p b) (read : f text = some x) (breaks : Breaks p rest) :
    stretch p f (text ++ rest) = some (x, rest) := by
  have taken : rest.takeWhile p = [] ∧ rest.dropWhile p = rest := by
    cases rest with
    | nil => exact ⟨rfl, rfl⟩
    | cons b rest => simp [breaks b rfl]
  rw [stretch, List.takeWhile_append_of_pos all, List.dropWhile_append_of_pos all, taken.1, taken.2,
    List.append_nil, read]
  rfl

/-- The number in front of a text, and what follows it. -/
def numberAt (text : Bytes) : Option (Nat × Bytes) :=
  stretch isDigit (digits 10) text

/-- The integer in front of a text, and what follows it. -/
def integerAt (text : Bytes) : Option (Int × Bytes) :=
  stretch isNumeral numeral text

theorem numberAt_ofNat (n : Nat) {rest : Bytes} (breaks : Breaks isDigit rest) :
    numberAt (Bytes.ofNat n ++ rest) = some (n, rest) :=
  stretch_append (fun _ ↦ Bytes.isDigit_of_mem_ofNat) (digits_ofNat n) breaks

theorem integerAt_ofInt (i : Int) {rest : Bytes} (breaks : Breaks isNumeral rest) :
    integerAt (Bytes.ofInt i ++ rest) = some (i, rest) :=
  stretch_append (fun _ ↦ Bytes.isNumeral_of_mem_ofInt) (numeral_ofInt i) breaks

end Reading

end BitCalculus
