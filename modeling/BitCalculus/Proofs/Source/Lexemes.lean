import Mathlib.Data.List.TakeWhile
import BitCalculus.Proofs.Source.Lines

/-!
# Lexemes

What is written at a token is a parenthesis, a backslash or a name, and a name is any text without
white space and reserved characters, be it a valid encoding or not. Every token of a text but the
end is one of these.
-/

namespace BitCalculus

/-! ### Names -/

namespace Bytes

/-- The bytes that no name has: white space and the reserved characters. -/
def delimiters : Bytes := [9, 10, 11, 12, 13, 32, 40, 41, 92]

theorem lt_of_mem_delimiters {b : UInt8} (h : b ∈ delimiters) : b < 0x80 := by
  have low : ∀ b ∈ delimiters, b < 0x80 := by simp [delimiters]
  exact low b h

/-- The text is a name. -/
structure IsName (text : Bytes) : Prop where
  nonempty : text ≠ []
  plain : ∀ b ∈ text, b ∉ delimiters

theorem mem_of_mem_glyphs {text : Bytes} {g : Glyph} (h : g ∈ text.glyphs) {b : UInt8}
    (hb : b ∈ g.bytes) : b ∈ text := by
  rw [← ofGlyphs_glyphs text, ofGlyphs, List.mem_flatMap]
  exact ⟨g, h, hb⟩

theorem bytes_ne_nil_of_mem_glyphs {text : Bytes} {g : Glyph} (h : g ∈ text.glyphs) :
    g.bytes ≠ [] := by
  induction text using glyphs.induct with
  | case1 => simp at h
  | case2 first rest g' ih =>
    rw [glyphs_cons] at h
    rcases List.mem_cons.mp h with rfl | h
    · obtain ⟨k, hk⟩ := Glyph.bytes_ofHead first rest
      simp [hk]
    · exact ih h

end Bytes

theorem Glyph.isNamePart_ascii_iff (b : UInt8) :
    (ascii b).isNamePart = true ↔ b ∉ Bytes.delimiters := by
  rw [isNamePart, Bool.and_eq_true, Bool.not_eq_true', ← Bool.not_eq_true, isSpace_ascii_iff,
    reservedKind?_ascii]
  simp only [Bytes.delimiters, List.mem_cons, List.not_mem_nil]
  repeat' split
  all_goals simp_all

/-- A glyph of a text may be part of a name exactly if its bytes are no delimiters. -/
theorem isNamePart_iff {text : Bytes} {g : Glyph} (h : g ∈ text.glyphs) :
    g.isNamePart = true ↔ ∀ b ∈ g.bytes, b ∉ Bytes.delimiters := by
  rcases Bytes.ascii_or_isForeign h with ⟨b, -, rfl⟩ | foreign
  · rw [Glyph.isNamePart_ascii_iff]
    simp [Glyph.ascii]
  · simp only [foreign.isNamePart, true_iff]
    intro b hb mem
    exact absurd (foreign.bytes b hb) (UInt8.not_le.mpr (Bytes.lt_of_mem_delimiters mem))

/-- The glyphs of a name may be parts of names. -/
theorem Bytes.IsName.isNamePart {name : Bytes} (h : name.IsName) :
    ∀ g ∈ name.glyphs, g.isNamePart = true := by
  intro g hg
  rw [isNamePart_iff hg]
  intro b hb
  exact h.plain b (Bytes.mem_of_mem_glyphs hg hb)

/-- Glyphs of a text that may be parts of a name are a name. -/
theorem isName_ofGlyphs {text : Bytes} {gs : List Glyph} (mem : ∀ g ∈ gs, g ∈ text.glyphs)
    (nonempty : gs ≠ []) (parts : ∀ g ∈ gs, g.isNamePart = true) :
    (Bytes.ofGlyphs gs).IsName := by
  constructor
  · obtain ⟨g, rest, rfl⟩ := List.exists_cons_of_ne_nil nonempty
    simp [Bytes.ofGlyphs, Bytes.bytes_ne_nil_of_mem_glyphs (mem g List.mem_cons_self)]
  · intro b hb
    obtain ⟨g, hg, hb⟩ := List.mem_flatMap.mp hb
    exact (isNamePart_iff (mem g hg)).mp (parts g hg) b hb

/-! ### Lexemes -/

/-- A token without its place. -/
abbrev Lexeme := TokenKind × Bytes

/-- The kind and the text of a token. -/
def Token.lexeme (t : Token) : Lexeme := (t.kind, t.text)

/-- The lexeme of the end of a text. -/
def Lexeme.endOfText : Lexeme := (.endOfText, [])

/-- The lexemes that a text can have before its end: reserved characters and names. -/
inductive Lexeme.IsOwn : Lexeme → Prop
  | leftParen : IsOwn (.leftParen, [40])
  | rightParen : IsOwn (.rightParen, [41])
  | lambda : IsOwn (.lambda, [92])
  | name {text : Bytes} (h : text.IsName) : IsOwn (.name, text)

theorem isOwn_of_reservedKind? {b : UInt8} {kind : TokenKind}
    (h : (Glyph.ascii b).reservedKind? = some kind) : Lexeme.IsOwn (kind, [b]) := by
  rw [Glyph.reservedKind?_ascii] at h
  split at h
  · next hb =>
    cases h
    exact hb ▸ .leftParen
  · split at h
    · next hb =>
      cases h
      exact hb ▸ .rightParen
    · split at h
      · next hb =>
        cases h
        exact hb ▸ .lambda
      · cases h

theorem Lexeme.IsOwn.kind_ne {l : Lexeme} (own : l.IsOwn) : l.1 ≠ .endOfText := by
  cases own <;> simp

/-- Every token of a text is its end or a lexeme of its own. -/
theorem isOwn_of_mem_scan {text source : Bytes} {line column : Nat} {gs : List Glyph}
    (inText : ∀ g ∈ gs, g ∈ text.glyphs) {t : Token} (h : t ∈ Source.scan source line column gs) :
    t.lexeme = .endOfText ∨ t.lexeme.IsOwn := by
  fun_induction Source.scan source line column gs with
  | case1 line column =>
    rw [List.mem_singleton.mp h]
    exact .inl rfl
  | case2 line column g rest newline ih =>
    exact ih (fun c hc ↦ inText c (List.mem_cons_of_mem g hc)) h
  | case3 line column g rest newline first comment ih =>
    refine ih (fun c hc ↦ inText c (List.mem_cons_of_mem g ?_)) h
    exact (List.dropWhile_suffix _).subset hc
  | case4 line column g rest here newline first kind reserved ih =>
    rcases List.mem_cons.mp h with rfl | h
    · right
      rcases Bytes.ascii_or_isForeign (inText g List.mem_cons_self) with ⟨b, -, rfl⟩ | foreign
      · exact isOwn_of_reservedKind? reserved
      · simp [Glyph.reservedKind?, foreign.is_eq_false] at reserved
    · exact ih (fun c hc ↦ inText c (List.mem_cons_of_mem g hc)) h
  | case5 line column g rest newline first reserved space ih =>
    exact ih (fun c hc ↦ inText c (List.mem_cons_of_mem g hc)) h
  | case6 line column g rest here newline first reserved space run ih =>
    rcases List.mem_cons.mp h with rfl | h
    · right
      have part : g.isNamePart = true := by simp [Glyph.isNamePart, space, reserved]
      refine .name (isName_ofGlyphs (fun c hc ↦ inText c ?_) (by simp) ?_)
      · exact List.cons_subset_cons g (List.takeWhile_prefix _).subset hc
      · simpa [part] using fun c hc ↦ List.mem_takeWhile_imp hc
    · refine ih (fun c hc ↦ inText c (List.mem_cons_of_mem g ?_)) h
      exact (List.dropWhile_suffix _).subset hc

/-- The tokens of a text: lexemes of its own and the end. -/
theorem lexemes_tokenize (source text : Bytes) :
    (tokenize source text).map Token.lexeme =
        (programTokens (tokenize source text)).map Token.lexeme ++ [.endOfText] ∧
      ∀ k ∈ programTokens (tokenize source text), k.lexeme.IsOwn := by
  obtain ⟨last, ends, scanned⟩ := exists_end source 1 0 text.glyphs
  rw [← tokenize] at scanned
  have own : ∀ k ∈ tokenize source text, k.lexeme = .endOfText ∨ k.lexeme.IsOwn :=
    fun k ↦ isOwn_of_mem_scan fun g ↦ id
  constructor
  · have last_eq : last.lexeme = .endOfText := by
      rcases own last (scanned ▸ List.mem_concat_self) with eq | is
      · exact eq
      · exact absurd ends is.kind_ne
    conv_lhs => rw [scanned]
    rw [List.map_append, List.map_singleton, last_eq]
  · intro k hk
    rcases own k (scanned ▸ List.mem_append_left _ hk) with eq | is
    · have kind : k.kind = .endOfText := congrArg Prod.fst eq
      simpa [kind] using List.mem_takeWhile_imp hk
    · exact is

end BitCalculus
