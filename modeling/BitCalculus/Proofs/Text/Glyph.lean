import Mathlib.Data.List.Basic
import BitCalculus.Text.Glyph

/-!
# Glyphs around ASCII bytes

An ASCII byte is a glyph of its own wherever it stands. Every other glyph is spelled by bytes above
ASCII only, and its code point, if it has one, lies above ASCII as well. So no glyph reaches over an
ASCII byte, and whatever stands around such a byte is read as if it stood alone.
-/

namespace BitCalculus

namespace Glyph

/-- The glyph of an ASCII byte. -/
def ascii (b : UInt8) : Glyph := ⟨some b.toNat, [b]⟩

/-- The glyph is no ASCII character: its bytes and its code point lie above. -/
structure IsForeign (g : Glyph) : Prop where
  bytes : ∀ b ∈ g.bytes, 0x80 ≤ b
  point : ∀ p ∈ g.point, 0x80 ≤ p

theorem ofHead_of_lt {first : UInt8} (h : first < 0x80) (rest : Bytes) :
    ofHead first rest = ascii first :=
  if_pos h

/-- The second byte of an encoding continues it, and behind two first bytes it is not too small. -/
theorem bounds_of_acceptsSecond {first second : UInt8} (h : acceptsSecond first second = true) :
    (0x80 ≤ second ∧ second ≤ 0xBF) ∧ (first = 0xE0 → 0xA0 ≤ second) ∧
      (first = 0xF0 → 0x90 ≤ second) := by
  simp only [acceptsSecond, Bool.and_eq_true, decide_eq_true_eq] at h
  obtain ⟨low, high⟩ := h
  refine ⟨⟨UInt8.le_trans ?_ low, UInt8.le_trans high ?_⟩, ?_, ?_⟩
  · split
    · decide
    · split <;> decide
  · split
    · decide
    · split <;> decide
  · rintro rfl
    exact low
  · rintro rfl
    exact low

/-- No encoding goes on over an ASCII byte. -/
theorem le_of_completes {first : UInt8} {tail : Bytes} (h : completes first tail = true) :
    ∀ b ∈ tail, 0x80 ≤ b := by
  cases tail with
  | nil => simp
  | cons second more =>
    simp only [completes, Bool.and_eq_true, List.all_eq_true] at h
    intro b hb
    rcases List.mem_cons.mp hb with rfl | hb
    · exact (bounds_of_acceptsSecond h.1).1.1
    · have := h.2 b hb
      simp only [isTail, Bool.and_eq_true, decide_eq_true_eq] at this
      exact this.1

/-- No encoding is longer than it has to be: what takes several bytes is not ASCII. -/
theorem le_point_of_completes {first : UInt8} {tail : Bytes} (hl : tail.length = tailLength first)
    (h : completes first tail = true) :
    0x80 ≤ tail.foldl (fun n b ↦ n * 64 + b.toNat % 64) (leadBits first) := by
  have second : ∀ {second more}, tail = second :: more →
      (128 ≤ second.toNat ∧ second.toNat ≤ 191) ∧ (first.toNat = 224 → 160 ≤ second.toNat) ∧
        (first.toNat = 240 → 144 ≤ second.toNat) := by
    rintro second more rfl
    rw [completes, Bool.and_eq_true] at h
    obtain ⟨bounds, low, low'⟩ := bounds_of_acceptsSecond h.1
    exact ⟨bounds, fun h ↦ low (UInt8.toNat_inj.mp h), fun h ↦ low' (UInt8.toNat_inj.mp h)⟩
  have := first.toNat_lt
  simp only [tailLength, leadBits, UInt8.le_iff_toNat_le, UInt8.reduceToNat] at hl ⊢
  split at hl
  · obtain ⟨b, rfl⟩ := List.length_eq_one_iff.mp hl
    rw [if_pos (by omega), List.foldl_cons, List.foldl_nil]
    omega
  · split at hl
    · obtain ⟨b, c, rfl⟩ := List.length_eq_two.mp hl
      obtain ⟨bounds, low, -⟩ := second rfl
      rw [if_neg (by omega), if_pos (by omega), List.foldl_cons, List.foldl_cons, List.foldl_nil]
      omega
    · split at hl
      · obtain ⟨b, c, d, rfl⟩ := List.length_eq_three.mp hl
        obtain ⟨bounds, -, low⟩ := second rfl
        rw [if_neg (by omega), if_neg (by omega), List.foldl_cons, List.foldl_cons, List.foldl_cons,
          List.foldl_nil]
        omega
      · rw [List.length_eq_zero_iff.mp hl] at h
        cases h

theorem isForeign_ofHead {first : UInt8} (h : ¬ first < 0x80) (rest : Bytes) :
    (ofHead first rest).IsForeign := by
  rw [UInt8.not_lt] at h
  rw [ofHead, if_neg (UInt8.not_lt.mpr h)]
  dsimp only
  split
  · next complete =>
    constructor
    · intro b hb
      rcases List.mem_cons.mp hb with rfl | hb
      · exact h
      · exact le_of_completes complete.2 b hb
    · simpa using le_point_of_completes complete.1 complete.2
  · exact ⟨by simpa using h, by simp⟩

theorem ofHead_append_ascii {b : UInt8} (hb : b < 0x80) (first : UInt8) (rest more : Bytes) :
    ofHead first (rest ++ b :: more) = ofHead first rest := by
  unfold ofHead
  split
  · rfl
  · dsimp only
    by_cases h : tailLength first ≤ rest.length
    · rw [List.take_append_of_le_length h]
    · have short : ¬ (rest.take (tailLength first)).length = tailLength first := by
        rw [List.length_take]
        omega
      have mem : b ∈ (rest ++ b :: more).take (tailLength first) := by
        rw [List.take_append, List.mem_append]
        obtain ⟨n, hn⟩ : ∃ n, tailLength first - rest.length = n + 1 :=
          ⟨tailLength first - rest.length - 1, by omega⟩
        simp [hn]
      rw [if_neg, if_neg fun h ↦ short h.1]
      rintro ⟨-, complete⟩
      exact absurd (le_of_completes complete b mem) (UInt8.not_le.mpr hb)

end Glyph

namespace Bytes

open Glyph (ascii)

/-- Before and behind an ASCII byte a text is read as if it ended and began there. -/
theorem glyphs_append_ascii {b : UInt8} (hb : b < 0x80) (text more : Bytes) :
    glyphs (text ++ b :: more) = text.glyphs ++ ascii b :: more.glyphs := by
  induction text using glyphs.induct with
  | case1 =>
    rw [List.nil_append, glyphs_cons, Glyph.ofHead_of_lt hb, glyphs_nil]
    rfl
  | case2 first rest g ih =>
    obtain ⟨k, hk⟩ := Glyph.bytes_ofHead first rest
    have hl : (Glyph.ofHead first rest).bytes.length - 1 ≤ rest.length := by
      rw [hk, List.length_cons, List.length_take]
      omega
    rw [List.cons_append, glyphs_cons, glyphs_cons, Glyph.ofHead_append_ascii hb,
      List.drop_append_of_le_length hl, ih, List.cons_append]

theorem glyphs_cons_ascii {b : UInt8} (hb : b < 0x80) (more : Bytes) :
    glyphs (b :: more) = ascii b :: more.glyphs := by
  rw [← List.nil_append (b :: more), glyphs_append_ascii hb, glyphs_nil, List.nil_append]

/-- Every glyph of a text is that of an ASCII byte or no ASCII character at all. -/
theorem ascii_or_isForeign {text : Bytes} {g : Glyph} (h : g ∈ text.glyphs) :
    (∃ b < 0x80, g = ascii b) ∨ g.IsForeign := by
  induction text using glyphs.induct with
  | case1 => simp at h
  | case2 first rest g' ih =>
    rw [glyphs_cons] at h
    rcases List.mem_cons.mp h with rfl | h
    · by_cases hf : first < 0x80
      · exact .inl ⟨first, hf, Glyph.ofHead_of_lt hf rest⟩
      · exact .inr (Glyph.isForeign_ofHead hf rest)
    · exact ih h

end Bytes

end BitCalculus
