import Mathlib
import BitCalculus.Proofs.Source.Grammar
import BitCalculus.Proofs.Source.Lexemes

/-!
# Printing and reading back

A tree is printed with all its parentheses, and a list of tokens with a blank before each. In both
cases a blank comes first, so that no name that begins with `#` makes the line a comment. What is
read from the printed text is what was printed, but for the places.
-/

namespace BitCalculus

/-! ### Reading what is printed -/

/-- From the bytes, read behind the first glyph of a line, where no comment begins, come the
lexemes. -/
def Lexes (text : Bytes) (ls : List Lexeme) : Prop :=
  ∀ (source : Bytes) (line column : Nat),
    (Source.scan source line (column + 1) text.glyphs).map Token.lexeme = ls

/-- No name goes on into the text. -/
def Delimited (text : Bytes) : Prop :=
  ∀ b ∈ text.head?, b ∈ Bytes.delimiters

theorem Delimited.glyphs_append {text : Bytes} (h : Delimited text) (name : Bytes) :
    (name ++ text).glyphs = name.glyphs ++ text.glyphs := by
  cases text with
  | nil => simp
  | cons b text =>
    have hb := Bytes.lt_of_mem_delimiters (h b rfl)
    rw [Bytes.glyphs_append_ascii hb, Bytes.glyphs_cons_ascii hb]

theorem Delimited.takeWhile_glyphs {text : Bytes} (h : Delimited text) :
    text.glyphs.takeWhile Glyph.isNamePart = [] := by
  cases text with
  | nil => simp
  | cons b text =>
    have mem := h b rfl
    have stops : ¬ (Glyph.ascii b).isNamePart = true := by
      rw [Glyph.isNamePart_ascii_iff]
      exact not_not_intro mem
    rw [Bytes.glyphs_cons_ascii (Bytes.lt_of_mem_delimiters mem), List.takeWhile_cons_of_neg stops]

theorem Delimited.dropWhile_glyphs {text : Bytes} (h : Delimited text) :
    text.glyphs.dropWhile Glyph.isNamePart = text.glyphs := by
  have whole := List.takeWhile_append_dropWhile (p := Glyph.isNamePart) (l := text.glyphs)
  rwa [h.takeWhile_glyphs, List.nil_append] at whole

namespace Lexes

variable {text : Bytes} {ls : List Lexeme}

theorem nil : Lexes [] [.endOfText] := by
  intro source line column
  rw [Bytes.glyphs_nil, Source.scan]
  rfl

theorem space (h : Lexes text ls) : Lexes (32 :: text) ls := by
  intro source line column
  rw [Bytes.glyphs_cons_ascii (by decide), Source.scan, if_neg (by decide), if_neg (by simp)]
  exact h source line (column + 1)

theorem reserved {b : UInt8} {kind : TokenKind} (is : (Glyph.ascii b).reservedKind? = some kind)
    (h : Lexes text ls) : Lexes (b :: text) ((kind, [b]) :: ls) := by
  intro source line column
  have space := Glyph.isSpace_eq_false_of_reservedKind? is
  have part : (Glyph.ascii b).isNamePart = false := by simp [Glyph.isNamePart, is]
  have mem : b ∈ Bytes.delimiters := by
    by_contra out
    rw [(Glyph.isNamePart_ascii_iff b).mpr out] at part
    cases part
  rw [Bytes.glyphs_cons_ascii (Bytes.lt_of_mem_delimiters mem), Source.scan,
    if_neg (by simp [Glyph.is_lineFeed_of_isSpace space]), if_neg (by simp), is]
  dsimp only
  rw [List.map_cons, h source line (column + 1)]
  rfl

theorem name {name : Bytes} (is : name.IsName) (delimited : Delimited text) (h : Lexes text ls) :
    Lexes (name ++ text) ((.name, name) :: ls) := by
  intro source line column
  have parts := is.isNamePart
  have spelled := Bytes.ofGlyphs_glyphs name
  rw [delimited.glyphs_append]
  cases hg : name.glyphs with
  | nil =>
    rw [hg] at spelled
    exact absurd spelled.symm is.nonempty
  | cons g run =>
    rw [hg] at parts spelled
    have part := parts g List.mem_cons_self
    have rest : ∀ c ∈ run, c.isNamePart = true := fun c hc ↦ parts c (List.mem_cons_of_mem g hc)
    have plain := part
    rw [Glyph.isNamePart, Bool.and_eq_true, Bool.not_eq_true', Option.isNone_iff_eq_none] at plain
    rw [List.cons_append, Source.scan,
      if_neg (by simp [Glyph.is_lineFeed_of_isNamePart part]), if_neg (by simp), plain.2]
    dsimp only
    rw [if_neg (by simp [plain.1]), List.takeWhile_append_of_pos rest,
      List.dropWhile_append_of_pos rest, delimited.takeWhile_glyphs, delimited.dropWhile_glyphs,
      List.append_nil, spelled, List.map_cons, Nat.add_right_comm, h]
    rfl

theorem own {l : Lexeme} (is : l.IsOwn) (delimited : Delimited text) (h : Lexes text ls) :
    Lexes (l.2 ++ text) (l :: ls) := by
  cases is with
  | leftParen => exact .reserved rfl h
  | rightParen => exact .reserved rfl h
  | lambda => exact .reserved rfl h
  | name name => exact .name name delimited h

end Lexes

/-- The line of a text that begins with a blank is no comment. -/
theorem lexemes_of_lexes {text : Bytes} {ls : List Lexeme} (h : Lexes text ls) (source : Bytes) :
    (tokenize source (32 :: text)).map Token.lexeme = ls := by
  rw [tokenize, Bytes.glyphs_cons_ascii (by decide), Source.scan, if_neg (by decide),
    if_neg (by decide)]
  exact h source 1 0

/-- The texts with a blank before each. -/
def spaced (texts : List Bytes) : Bytes :=
  texts.flatMap fun text ↦ 32 :: text

theorem Delimited.spaced {text : Bytes} (h : Delimited text) (texts : List Bytes) :
    Delimited (spaced texts ++ text) := by
  cases texts with
  | nil => exact h
  | cons first texts => simp [Delimited, BitCalculus.spaced, Bytes.delimiters]

/-- Lexemes are read back if a blank stands before each. -/
theorem Lexes.spaced {own ls : List Lexeme} (is : ∀ l ∈ own, l.IsOwn) {text : Bytes}
    (delimited : Delimited text) (h : Lexes text ls) :
    Lexes (spaced (own.map Prod.snd) ++ text) (own ++ ls) := by
  induction own with
  | nil => exact h
  | cons l own ih =>
    have rest := ih fun l' hl ↦ is l' (List.mem_cons_of_mem l hl)
    rw [List.map_cons, BitCalculus.spaced, List.flatMap_cons, ← BitCalculus.spaced,
      List.cons_append, List.cons_append, List.append_assoc]
    exact .space (.own (is l List.mem_cons_self) (delimited.spaced _) rest)

/-- A text of lexemes with a blank before each has these lexemes, also if it ends in a blank. -/
theorem lexemes_spaced {own : List Lexeme} (is : ∀ l ∈ own, l.IsOwn) (source : Bytes)
    {text : Bytes} (h : text = [] ∨ text = [32]) :
    (tokenize source (spaced (own.map Prod.snd) ++ text)).map Token.lexeme =
      own ++ [.endOfText] := by
  have delimited : Delimited text := by
    rcases h with rfl | rfl <;> simp [Delimited, Bytes.delimiters]
  have ends : Lexes text [.endOfText] := by
    rcases h with rfl | rfl
    · exact .nil
    · exact .space .nil
  cases own with
  | nil =>
    rcases h with rfl | rfl
    · rw [tokenize, Source.scan.eq_def]
      simp [spaced, Token.lexeme, Lexeme.endOfText]
    · exact lexemes_of_lexes .nil source
  | cons l own =>
    have rest := ends.spaced (fun l' hl ↦ is l' (List.mem_cons_of_mem l hl)) delimited
    have first := rest.own (is l List.mem_cons_self) (delimited.spaced _)
    rw [List.map_cons, spaced, List.flatMap_cons, ← spaced, List.cons_append, List.cons_append,
      List.append_assoc]
    exact lexemes_of_lexes first source

/-! ### Trees -/

namespace Tree

/-- The names of a tree: its identifiers and its parameters. -/
def names : Tree → List Bytes
  | .name token => [token.text]
  | .lambda _ parameter body => parameter.text :: body.names
  | .apply function argument => function.names ++ argument.names

/-- A tree as text, with parentheses around every abstraction and every application. -/
def rendered : Tree → Bytes
  | .name token => token.text
  | .lambda _ parameter body => lit "(\\" ++ parameter.text ++ lit " " ++ body.rendered ++ lit ")"
  | .apply function argument =>
    lit "(" ++ function.rendered ++ lit " " ++ argument.rendered ++ lit ")"

theorem rendered_lambda (start parameter : Token) (body : Tree) :
    (lambda start parameter body).rendered =
      40 :: 92 :: (parameter.text ++ 32 :: (body.rendered ++ [41])) := by
  rw [rendered, show lit "(\\" = [40, 92] from rfl, show lit " " = [32] from rfl,
    show lit ")" = [41] from rfl]
  simp

theorem rendered_apply (function argument : Tree) :
    (apply function argument).rendered =
      40 :: (function.rendered ++ 32 :: (argument.rendered ++ [41])) := by
  rw [rendered, show lit "(" = [40] from rfl, show lit " " = [32] from rfl,
    show lit ")" = [41] from rfl]
  simp

/-- The lexemes of a tree as it is rendered. -/
def lexemes : Tree → List Lexeme
  | .name token => [(.name, token.text)]
  | .lambda _ parameter body =>
    (.leftParen, [40]) :: (.lambda, [92]) :: (.name, parameter.text) ::
      (body.lexemes ++ [(.rightParen, [41])])
  | .apply function argument =>
    (.leftParen, [40]) :: (function.lexemes ++ argument.lexemes ++ [(.rightParen, [41])])

end Tree

/-- What a tree is rendered to is read as the lexemes of the tree. -/
theorem lexes_rendered {t : Tree} (names : ∀ x ∈ t.names, x.IsName) {text : Bytes}
    {ls : List Lexeme} (delimited : Delimited text) (h : Lexes text ls) :
    Lexes (t.rendered ++ text) (t.lexemes ++ ls) := by
  -- The parts are read from the last to the first, each in front of what is read already.
  induction t generalizing text ls with
  | name token =>
    rw [Tree.rendered, Tree.lexemes, List.singleton_append]
    exact .name (names token.text (by simp [Tree.names])) delimited h
  | lambda start parameter body ih =>
    simp only [Tree.names, List.forall_mem_cons] at names
    have close : Lexes (41 :: text) ((.rightParen, [41]) :: ls) := .reserved rfl h
    have inner := ih names.2 (by simp [Delimited, Bytes.delimiters]) close
    have bound : Lexes _ ((.name, parameter.text) :: _) :=
      .name names.1 (by simp [Delimited, Bytes.delimiters]) inner.space
    have start : Lexes (40 :: 92 :: _) ((.leftParen, [40]) :: (.lambda, [92]) :: _) :=
      .reserved rfl (.reserved rfl bound)
    rw [Tree.rendered_lambda, Tree.lexemes]
    simpa using start
  | apply function argument ihf ihx =>
    simp only [Tree.names, List.forall_mem_append] at names
    have close : Lexes (41 :: text) ((.rightParen, [41]) :: ls) := .reserved rfl h
    have second := ihx names.2 (by simp [Delimited, Bytes.delimiters]) close
    have first := ihf names.1 (by simp [Delimited, Bytes.delimiters]) second.space
    have start : Lexes (40 :: _) ((.leftParen, [40]) :: _) := .reserved rfl first
    rw [Tree.rendered_apply, Tree.lexemes]
    simpa using start

/-! ### Up to places -/

/-- The token of a lexeme at no place. -/
def Lexeme.unplaced (l : Lexeme) : Token := ⟨l.1, l.2, ⟨[], 0, 0⟩⟩

namespace Tree

/-- The tree without the places of its tokens. -/
def unplaced : Tree → Tree
  | .name token => .name token.lexeme.unplaced
  | .lambda start parameter body =>
    .lambda start.lexeme.unplaced parameter.lexeme.unplaced body.unplaced
  | .apply function argument => .apply function.unplaced argument.unplaced

/-- The tree with the same shape and the same names, whose tokens are at no place and of the kinds
that tokens have there in every tree that is read. -/
def bare : Tree → Tree
  | .name token => .name (Lexeme.unplaced (.name, token.text))
  | .lambda _ parameter body =>
    .lambda (Lexeme.unplaced (.lambda, lit "\\")) (Lexeme.unplaced (.name, parameter.text))
      body.bare
  | .apply function argument => .apply function.bare argument.bare

/-- The names of the tree are names, and its tokens have the kinds of their places. -/
structure IsWritten (t : Tree) : Prop where
  names : ∀ x ∈ t.names, x.IsName
  kinds : t.unplaced = t.bare

theorem IsWritten.apply {f x : Tree} (hf : f.IsWritten) (hx : x.IsWritten) :
    (Tree.apply f x).IsWritten := by
  constructor
  · rw [Tree.names, List.forall_mem_append]
    exact ⟨hf.names, hx.names⟩
  · rw [unplaced, bare, hf.kinds, hx.kinds]

end Tree

theorem exists_parens {ks : List Token} {ls : List Lexeme}
    (h : ks.map Token.lexeme = (.leftParen, [40]) :: (ls ++ [(.rightParen, [41])])) :
    ∃ (left : Token) (inner : List Token) (right : Token), ks = left :: (inner ++ [right]) ∧
      left.kind = .leftParen ∧ right.kind = .rightParen ∧ inner.map Token.lexeme = ls := by
  obtain ⟨left, rest, rfl, hl, h⟩ := List.map_eq_cons_iff.mp h
  obtain ⟨inner, rest, rfl, hi, h⟩ := List.map_eq_append_iff.mp h
  obtain ⟨right, rfl, hr⟩ := List.map_eq_singleton_iff.mp h
  exact ⟨left, inner, right, rfl, congrArg Prod.fst hl, congrArg Prod.fst hr, hi⟩

/-- Tokens with the lexemes of a tree are an atom with this tree, but for the places. -/
theorem exists_derives {t : Tree} {ks : List Token} (h : ks.map Token.lexeme = t.lexemes) :
    ∃ t', Derives .atom ks t' ∧ t'.unplaced = t.bare := by
  induction t generalizing ks with
  | name token =>
    obtain ⟨k, rfl, hk⟩ := List.map_eq_singleton_iff.mp h
    refine ⟨.name k, .name (congrArg Prod.fst hk), ?_⟩
    rw [Tree.unplaced, Tree.bare, hk]
  | lambda start parameter body ih =>
    rw [Tree.lexemes, ← List.cons_append, ← List.cons_append] at h
    obtain ⟨left, inner, right, rfl, hl, hr, h⟩ := exists_parens h
    obtain ⟨s, rest, rfl, hs, h⟩ := List.map_eq_cons_iff.mp h
    obtain ⟨p, rest, rfl, hp, h⟩ := List.map_eq_cons_iff.mp h
    obtain ⟨body', derived, same⟩ := ih h
    have abstraction : Derives .abstraction (s :: p :: rest) (.lambda s p body') :=
      .lambda (congrArg Prod.fst hs) (congrArg Prod.fst hp) derived.one.atoms
    refine ⟨.lambda s p body', .parens hl abstraction.abstraction hr, ?_⟩
    rw [Tree.unplaced, Tree.bare, hs, hp, same]
    rfl
  | apply function argument ihf ihx =>
    obtain ⟨left, inner, right, rfl, hl, hr, h⟩ := exists_parens h
    obtain ⟨ks, ls, rfl, hf, hx⟩ := List.map_eq_append_iff.mp h
    obtain ⟨f, derivedF, sameF⟩ := ihf hf
    obtain ⟨x, derivedX, sameX⟩ := ihx hx
    refine ⟨.apply f x, .parens hl (.atoms (.more derivedF.one derivedX)) hr, ?_⟩
    rw [Tree.unplaced, Tree.bare, sameF, sameX]

theorem Lexeme.IsOwn.isName {l : Lexeme} (own : l.IsOwn) (h : l.1 = .name) : l.2.IsName := by
  cases own with
  | name name => exact name
  | leftParen => cases h
  | rightParen => cases h
  | lambda => cases h

theorem Lexeme.IsOwn.eq_lambda {l : Lexeme} (own : l.IsOwn) (h : l.1 = .lambda) :
    l = (.lambda, lit "\\") := by
  cases own with
  | lambda => rfl
  | leftParen => cases h
  | rightParen => cases h
  | name name => cases h

/-- In a tree of lexemes the names are names, and the tokens have the kinds of their places. -/
theorem isWritten_of_derives {phrase : Phrase} {ks : List Token} {t : Tree}
    (h : Derives phrase ks t) (own : ∀ k ∈ ks, k.lexeme.IsOwn) : t.IsWritten := by
  induction h with
  | atoms h ih => exact ih own
  | atomsThenAbstraction hf hx ihf ihx =>
    rw [List.forall_mem_append] at own
    exact (ihf own.1).apply (ihx own.2)
  | abstraction h ih => exact ih own
  | one h ih => exact ih own
  | more hf hx ihf ihx =>
    rw [List.forall_mem_append] at own
    exact (ihf own.1).apply (ihx own.2)
  | @name k hk =>
    have name := (own k List.mem_cons_self).isName hk
    constructor
    · rwa [Tree.names, List.forall_mem_singleton]
    · rw [Tree.unplaced, Tree.bare, Token.lexeme, hk]
  | parens hl h hr ih => exact ih fun k hk ↦ own k (by simp [hk])
  | @lambda start parameter ks body hs hp h ih =>
    rw [List.forall_mem_cons, List.forall_mem_cons] at own
    obtain ⟨ownStart, ownParameter, ownBody⟩ := own
    have body := ih ownBody
    constructor
    · rw [Tree.names, List.forall_mem_cons]
      exact ⟨ownParameter.isName hp, body.names⟩
    · rw [Tree.unplaced, Tree.bare, ownStart.eq_lambda hs, body.kinds, Token.lexeme, hp]

/-- The tokens of a text, printed with a blank before each, with or without the end. -/
theorem lexemes_spaced_tokenize (source source' text : Bytes) {ks : List Token}
    (h : ks = tokenize source text ∨ ks = programTokens (tokenize source text)) :
    (tokenize source' (spaced (ks.map Token.text))).map Token.lexeme =
      (tokenize source text).map Token.lexeme := by
  obtain ⟨lexemes, own⟩ := lexemes_tokenize source text
  have is : ∀ l ∈ (programTokens (tokenize source text)).map Token.lexeme, l.IsOwn := by
    simpa using own
  have texts : ks.map Token.text = (ks.map Token.lexeme).map Prod.snd := by
    rw [List.map_map]
    rfl
  rw [texts, lexemes]
  rcases h with rfl | rfl
  · rw [lexemes, List.map_append, spaced, List.flatMap_append]
    exact lexemes_spaced is source' (.inr rfl)
  · have read := lexemes_spaced is source' (.inl rfl)
    rwa [List.append_nil] at read

/-- A tree whose names are names is rendered to a text that is read, behind a blank, as the tree
with its shape and its names. If its tokens have the kinds of their places, as they have in every
tree that was read, this is the tree itself, but for the places. The tokens of any text, printed with
a blank before each, with or without the end, are read as tokens of the same kinds with the same
texts. -/
theorem reading_undoes_printing :
    (∀ (source : Bytes) (t : Tree), (∀ x ∈ t.names, x.IsName) →
      ∃ t', parseText source (32 :: t.rendered) = .ok t' ∧ t'.unplaced = t.bare ∧
        (t.IsWritten → t'.unplaced = t.unplaced)) ∧
      (∀ (source text : Bytes) (t : Tree), parseText source text = .ok t → t.IsWritten) ∧
      ∀ (source source' text : Bytes) (ks : List Token),
        ks = tokenize source text ∨ ks = programTokens (tokenize source text) →
        (tokenize source' (spaced (ks.map Token.text))).map Token.lexeme =
          (tokenize source text).map Token.lexeme := by
  refine ⟨?_, ?_, fun source source' text ks ↦ lexemes_spaced_tokenize source source' text⟩
  · intro source t names
    have read := lexemes_of_lexes (lexes_rendered names (by simp [Delimited]) .nil) source
    rw [List.append_nil, (lexemes_tokenize ..).1] at read
    obtain ⟨t', derived, same⟩ := exists_derives (List.append_cancel_right read)
    refine ⟨t', parse_of_derives derived.one.atoms, same, fun written ↦ ?_⟩
    rw [same, written.kinds]
  · intro source text t parsed
    exact isWritten_of_derives (derives_of_parse parsed) (lexemes_tokenize source text).2

/-- Names that begin with `#`, one of which ends in a byte that no encoding has, and the tokens of a
text with a comment. -/
theorem reading_undoes_printing_hash :
    ∃ (t t' : Tree) (text : Bytes), t.names = [lit "#x", lit "#x", lit "#" ++ [0xFF]] ∧
      t.rendered = lit "(\\#x (#x #" ++ [0xFF] ++ lit "))" ∧
      parseText (lit "t") (32 :: t.rendered) = .ok t' ∧ t'.unplaced = t.unplaced ∧
      text = lit "#c\n(f\\x #y)" ∧
      (tokenize (lit "t") (spaced ((tokenize (lit "t") text).map Token.text))).map Token.lexeme =
        (tokenize (lit "t") text).map Token.lexeme := by
  obtain ⟨trees, -, tokens⟩ := reading_undoes_printing
  obtain ⟨t, names, rendered, kinds⟩ : ∃ t : Tree,
      t.names = [lit "#x", lit "#x", lit "#" ++ [0xFF]] ∧
      t.rendered = lit "(\\#x (#x #" ++ [0xFF] ++ lit "))" ∧ t.unplaced = t.bare :=
    ⟨.lambda (Lexeme.unplaced (.lambda, lit "\\")) (Lexeme.unplaced (.name, lit "#x"))
      (.apply (.name (Lexeme.unplaced (.name, lit "#x")))
        (.name (Lexeme.unplaced (.name, lit "#" ++ [0xFF])))), rfl, rfl, rfl⟩
  have named : ∀ x ∈ t.names, x.IsName := by
    have plain : ∀ x ∈ [lit "#x", lit "#x", lit "#" ++ [0xFF]],
        x ≠ [] ∧ ∀ b ∈ x, b ∉ Bytes.delimiters := by
      decide +kernel
    intro x hx
    rw [names] at hx
    exact ⟨(plain x hx).1, (plain x hx).2⟩
  obtain ⟨t', parsed, -, same⟩ := trees (lit "t") t named
  exact ⟨t, t', _, names, rendered, parsed, same ⟨named, kinds⟩, rfl,
    tokens (lit "t") (lit "t") _ _ (.inl rfl)⟩

end BitCalculus
