import BitCalculus.Proofs.Text.Glyph
import BitCalculus.Source.Parse

/-!
# Tokens of texts below one another

A line feed ends whatever was being read: a glyph, a name, a comment. What follows it is read as at
the beginning of a text, only further down. So the tokens of two texts with a line feed between them
are the tokens of the first, without its end, and those of the second, moved down by the lines above
them.
-/

namespace BitCalculus

/-! ### Runs -/

section Runs

variable {α : Type} {a : α}

/-- A run of elements does not go on over one that stops it. -/
theorem takeWhile_append_stop (p : α → Bool) (h : p a = false) (l more : List α) :
    (l ++ a :: more).takeWhile p = l.takeWhile p := by
  induction l with
  | nil => simp [h]
  | cons b l ih => simp [List.takeWhile_cons, ih]

theorem dropWhile_append_stop (p : α → Bool) (h : p a = false) (l more : List α) :
    (l ++ a :: more).dropWhile p = l.dropWhile p ++ a :: more := by
  induction l with
  | nil => simp [h]
  | cons b l ih => by_cases hb : p b <;> simp [hb, ih]

/-- Elements that cannot be part of a run are all left after it. -/
theorem countP_dropWhile {p q : α → Bool} (h : ∀ b, p b → q b = false) (l : List α) :
    (l.dropWhile p).countP q = l.countP q := by
  induction l with
  | nil => rfl
  | cons b l ih => by_cases hb : p b <;> simp [hb, h, ih]

end Runs

namespace Glyph

/-! ### Which glyphs are what -/

theorem IsForeign.is_eq_false {g : Glyph} (h : g.IsForeign) {c : Char} (hc : c.toNat < 0x80) :
    g.is c = false := by
  rw [is, beq_eq_false_iff_ne]
  intro hp
  have := h.point _ hp
  omega

/-- What is no ASCII character is part of a name. -/
theorem IsForeign.isNamePart {g : Glyph} (h : g.IsForeign) : g.isNamePart = true := by
  simp [Glyph.isNamePart, isSpace, reservedKind?, h.is_eq_false]

theorem isSpace_ascii_iff (b : UInt8) :
    (ascii b).isSpace = true ↔ b ∈ ([9, 10, 11, 12, 13, 32] : Bytes) := by
  simp only [isSpace, is, ascii, List.mem_cons, List.not_mem_nil, or_false, ← UInt8.toNat_inj,
    Bool.or_eq_true, beq_iff_eq, Option.some.injEq, Char.reduceToNat, UInt8.reduceToNat]
  omega

theorem reservedKind?_ascii (b : UInt8) : (ascii b).reservedKind? =
    if b = 40 then some .leftParen
    else if b = 41 then some .rightParen
    else if b = 92 then some .lambda
    else none := by
  simp only [reservedKind?, is, ascii, ← UInt8.toNat_inj, beq_iff_eq, Option.some.injEq,
    Char.reduceToNat, UInt8.reduceToNat]

theorem isSpace_eq_false_of_reservedKind? {g : Glyph} {kind : TokenKind}
    (h : g.reservedKind? = some kind) : g.isSpace = false := by
  unfold reservedKind? at h
  repeat' split at h
  all_goals simp_all [isSpace, is]

theorem reservedKind?_ne_endOfText {g : Glyph} {kind : TokenKind}
    (h : g.reservedKind? = some kind) : kind ≠ .endOfText := by
  rintro rfl
  unfold reservedKind? at h
  repeat' split at h
  all_goals cases h

/-! ### Line feeds -/

/-- The line feed. -/
def lineFeed : Glyph := ascii 10

/-- How many line feeds there are. -/
def lineFeeds (gs : List Glyph) : Nat :=
  gs.countP fun g ↦ g.is '\n'

theorem is_lineFeed_of_isSpace {g : Glyph} (h : g.isSpace = false) : g.is '\n' = false := by
  simp only [isSpace, Bool.or_eq_false_iff] at h
  exact h.1.1.2

theorem is_lineFeed_of_isNamePart {g : Glyph} (h : g.isNamePart = true) : g.is '\n' = false := by
  rw [isNamePart, Bool.and_eq_true, Bool.not_eq_true'] at h
  exact is_lineFeed_of_isSpace h.1

/-- The line feeds of a text are its bytes ten. -/
theorem lineFeeds_glyphs (text : Bytes) : lineFeeds text.glyphs = text.count 10 := by
  have spelled : ∀ gs : List Glyph, (∀ g ∈ gs, (∃ b < 0x80, g = ascii b) ∨ g.IsForeign) →
      lineFeeds gs = (Bytes.ofGlyphs gs).count 10 := by
    intro gs h
    induction gs with
    | nil => rfl
    | cons g gs ih =>
      have rest := ih fun g' hg' ↦ h g' (List.mem_cons_of_mem g hg')
      rw [Bytes.ofGlyphs, List.flatMap_cons, ← Bytes.ofGlyphs, List.count_append, ← rest, lineFeeds,
        List.countP_cons, ← lineFeeds, Nat.add_comm]
      congr 1
      rcases h g List.mem_cons_self with ⟨b, -, rfl⟩ | foreign
      · have : b.toNat = 10 ↔ b = 10 := UInt8.toNat_inj (b := 10)
        simp [is, ascii, List.count_singleton, this]
      · rw [foreign.is_eq_false (by decide), if_neg (by decide), eq_comm, List.count_eq_zero]
        intro hb
        exact absurd (foreign.bytes 10 hb) (by decide)
  rw [spelled _ fun g ↦ Bytes.ascii_or_isForeign, Bytes.ofGlyphs_glyphs]

end Glyph

open Glyph (lineFeed lineFeeds)

theorem glyphs_append_lineFeed (text more : Bytes) :
    Bytes.glyphs (text ++ 10 :: more) = text.glyphs ++ lineFeed :: more.glyphs :=
  Bytes.glyphs_append_ascii (by decide) text more

/-! ### The end of a text -/

theorem programTokens_cons {k : Token} (h : k.kind ≠ .endOfText) (ks : List Token) :
    programTokens (k :: ks) = k :: programTokens ks := by
  simp [programTokens, h]

/-- The tokens of a text end it, and no other token does. -/
theorem exists_end (source : Bytes) (line column : Nat) (gs : List Glyph) :
    ∃ last : Token, last.kind = .endOfText ∧ Source.scan source line column gs =
      programTokens (Source.scan source line column gs) ++ [last] := by
  fun_induction Source.scan source line column gs with
  | case1 line column => exact ⟨_, rfl, rfl⟩
  | case2 line column g rest newline ih => exact ih
  | case3 line column g rest newline first comment ih => exact ih
  | case4 line column g rest here newline first kind reserved ih =>
    obtain ⟨last, ends, scanned⟩ := ih
    refine ⟨last, ends, ?_⟩
    rw [programTokens_cons (Glyph.reservedKind?_ne_endOfText reserved), List.cons_append, ← scanned]
  | case5 line column g rest newline first reserved space ih => exact ih
  | case6 line column g rest here newline first reserved space run ih =>
    obtain ⟨last, ends, scanned⟩ := ih
    refine ⟨last, ends, ?_⟩
    rw [programTokens_cons (by simp), List.cons_append, ← scanned]

/-! ### Below a line feed -/

/-- The token moved down by the given number of lines. -/
def Token.lower (n : Nat) (t : Token) : Token :=
  { t with location := { t.location with line := t.location.line + n } }

/-- Where a text stands and how it is called matters for the places of its tokens only: whatever
moves one token moves them all. -/
theorem scan_move {source source' : Bytes} {n : Nat} {f : Token → Token}
    (moves : ∀ (kind : TokenKind) (text : Bytes) (line : Nat) (column : Int),
      f ⟨kind, text, ⟨source, line, column⟩⟩ = ⟨kind, text, ⟨source', (line + n : Nat), column⟩⟩)
    (line column : Nat) (gs : List Glyph) :
    Source.scan source' (line + n) column gs = (Source.scan source line column gs).map f := by
  fun_induction Source.scan source line column gs with
  | case1 line column => simp [Source.scan, moves]
  | case2 line column g rest newline ih =>
    rw [Source.scan, if_pos newline, Nat.add_right_comm, ih]
  | case3 line column g rest newline first comment ih =>
    rw [Source.scan, if_neg newline, if_pos first]
    exact ih
  | case4 line column g rest here newline first kind reserved ih =>
    rw [Source.scan, if_neg newline, if_neg first, reserved]
    simp [ih, here, moves]
  | case5 line column g rest newline first reserved space ih =>
    rw [Source.scan, if_neg newline, if_neg first, reserved]
    simp [space, ih]
  | case6 line column g rest here newline first reserved space run ih =>
    rw [Source.scan, if_neg newline, if_neg first, reserved]
    simp [space, ih, here, run, moves]

/-- Tokens that begin further down are the same tokens, moved down. -/
theorem scan_lower (source : Bytes) (n line column : Nat) (gs : List Glyph) :
    Source.scan source (line + n) column gs =
      (Source.scan source line column gs).map (Token.lower n) := by
  apply scan_move
  simp [Token.lower]

/-- A line feed leaves the tokens before it as they are, but for the end, and the tokens behind it
are those of a new line. -/
theorem scan_append_lineFeed (source : Bytes) (line column : Nat) (gs more : List Glyph) :
    Source.scan source line column (gs ++ lineFeed :: more) =
      programTokens (Source.scan source line column gs) ++
        Source.scan source (line + (1 + lineFeeds gs)) 0 more := by
  fun_induction Source.scan source line column gs with
  | case1 line column =>
    rw [List.nil_append, Source.scan, if_pos (by decide)]
    rfl
  | case2 line column g rest newline ih =>
    rw [List.cons_append, Source.scan, if_pos newline, ih]
    simp [lineFeeds, newline, Nat.add_assoc, Nat.add_comm]
  | case3 line column g rest newline first comment ih =>
    have noFeed : ∀ c : Glyph, (!c.is '\n') = true → c.is '\n' = false := by simp
    rw [List.cons_append, Source.scan, if_neg newline, if_pos first]
    dsimp only
    rw [takeWhile_append_stop _ (by decide), dropWhile_append_stop _ (by decide), ih]
    simp [lineFeeds, newline, countP_dropWhile noFeed]
  | case4 line column g rest here newline first kind reserved ih =>
    rw [List.cons_append, Source.scan, if_neg newline, if_neg first, reserved]
    dsimp only
    rw [ih, programTokens_cons (Glyph.reservedKind?_ne_endOfText reserved), List.cons_append]
    simp [lineFeeds, newline, here]
  | case5 line column g rest newline first reserved space ih =>
    rw [List.cons_append, Source.scan, if_neg newline, if_neg first, reserved]
    dsimp only
    rw [if_pos space, ih]
    simp [lineFeeds, newline]
  | case6 line column g rest here newline first reserved space run ih =>
    rw [List.cons_append, Source.scan, if_neg newline, if_neg first, reserved]
    dsimp only
    rw [if_neg space, takeWhile_append_stop _ (by decide), dropWhile_append_stop _ (by decide), ih,
      programTokens_cons (by simp), List.cons_append]
    simp [lineFeeds, newline, here, run, countP_dropWhile fun _ ↦ Glyph.is_lineFeed_of_isNamePart]

/-- The tokens of two texts with a line feed between them. -/
theorem tokenize_append_lineFeed (source text more : Bytes) :
    tokenize source (text ++ 10 :: more) =
      programTokens (tokenize source text) ++
        (tokenize source more).map (Token.lower (1 + text.count 10)) := by
  rw [tokenize, glyphs_append_lineFeed, scan_append_lineFeed, scan_lower, Glyph.lineFeeds_glyphs]
  rfl

end BitCalculus
