import BitCalculus.Text.Bytes

/-!
# Glyphs

A text is read glyph by glyph. A glyph is either a code point together with the bytes of its
UTF-8 encoding, or one stray byte that starts no valid encoding. Overlong forms, surrogates and
values above U+10FFFF are no encodings, so their bytes are stray one by one. Main statement:
`ofGlyphs_glyphs`, the glyphs of a text spell exactly that text.
-/

namespace BitCalculus

/-- One glyph of a text: its code point (`none` for a stray byte) and its exact bytes. -/
structure Glyph where
  point : Option Nat
  bytes : Bytes
deriving DecidableEq

namespace Glyph

/-- How many bytes follow the first byte of an encoding; zero for a byte that starts none. -/
def tailLength (first : UInt8) : Nat :=
  if 0xC2 ≤ first ∧ first ≤ 0xDF then 1
  else if 0xE0 ≤ first ∧ first ≤ 0xEF then 2
  else if 0xF0 ≤ first ∧ first ≤ 0xF4 then 3
  else 0

/-- Whether `second` may follow `first`. The bounds are narrower after four first bytes, which
keeps out overlong forms, surrogates and values that are too large. -/
def acceptsSecond (first second : UInt8) : Bool :=
  let low : UInt8 := if first = 0xE0 then 0xA0 else if first = 0xF0 then 0x90 else 0x80
  let high : UInt8 := if first = 0xED then 0x9F else if first = 0xF4 then 0x8F else 0xBF
  low ≤ second && second ≤ high

/-- Whether a byte continues an encoding. -/
def isTail (b : UInt8) : Bool :=
  0x80 ≤ b && b ≤ 0xBF

/-- Whether `tail` completes the encoding that starts with `first`. -/
def completes (first : UInt8) (tail : Bytes) : Bool :=
  match tail with
  | [] => false
  | second :: more => acceptsSecond first second && more.all isTail

/-- The bits that a first byte contributes to its code point. -/
def leadBits (first : UInt8) : Nat :=
  if first ≤ 0xDF then first.toNat % 32
  else if first ≤ 0xEF then first.toNat % 16
  else first.toNat % 8

/-- The glyph at the head of the text `first :: rest`. -/
def ofHead (first : UInt8) (rest : Bytes) : Glyph :=
  if first < 0x80 then ⟨some first.toNat, [first]⟩
  else
    let tail := rest.take (tailLength first)
    if tail.length = tailLength first ∧ completes first tail then
      ⟨some (tail.foldl (fun n b => n * 64 + b.toNat % 64) (leadBits first)), first :: tail⟩
    else ⟨none, [first]⟩

/-- Whether the glyph is the given ASCII character. -/
def is (g : Glyph) (c : Char) : Bool :=
  g.point == some c.toNat

/-- The glyph at the head of a text is spelled by the first bytes of the text. -/
theorem bytes_ofHead (first : UInt8) (rest : Bytes) :
    ∃ k, (ofHead first rest).bytes = first :: rest.take k := by
  unfold ofHead
  split
  · exact ⟨0, by simp⟩
  · dsimp only
    split
    · exact ⟨tailLength first, rfl⟩
    · exact ⟨0, by simp⟩

end Glyph

namespace Bytes

/-- The glyphs of a text from left to right. -/
def glyphs : Bytes → List Glyph
  | [] => []
  | first :: rest =>
    let g := Glyph.ofHead first rest
    g :: glyphs (rest.drop (g.bytes.length - 1))
termination_by text => text.length
decreasing_by simp only [List.length_drop, List.length_cons]; omega

/-- The text that a list of glyphs spells. -/
def ofGlyphs (gs : List Glyph) : Bytes :=
  gs.flatMap Glyph.bytes

@[simp] theorem glyphs_nil : glyphs [] = [] := by
  rw [glyphs]

theorem glyphs_cons (first : UInt8) (rest : Bytes) :
    glyphs (first :: rest) =
      Glyph.ofHead first rest ::
        glyphs (rest.drop ((Glyph.ofHead first rest).bytes.length - 1)) := by
  rw [glyphs]

/-- The glyphs of a text spell exactly that text: no byte is lost, added or moved. -/
theorem ofGlyphs_glyphs (text : Bytes) : ofGlyphs (glyphs text) = text := by
  induction text using glyphs.induct with
  | case1 => simp [ofGlyphs]
  | case2 first rest g ih =>
    rw [glyphs_cons]
    obtain ⟨k, hk⟩ := Glyph.bytes_ofHead first rest
    simp only [ofGlyphs, List.flatMap_cons] at ih ⊢
    rw [ih, hk]
    simp only [List.length_cons, Nat.add_sub_cancel, List.cons_append, List.cons.injEq, true_and,
      List.length_take]
    rcases Nat.le_total k rest.length with h | h
    · rw [Nat.min_eq_left h, List.take_append_drop]
    · rw [Nat.min_eq_right h, List.take_of_length_le h]
      simp

end Bytes

end BitCalculus
