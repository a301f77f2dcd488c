import BitCalculus.Source.Token

/-!
# Splitting a text into tokens

The text is read glyph by glyph. Parentheses and backslashes are tokens of their own, a name is a
maximal run of glyphs that are neither white space nor reserved, and a line whose first glyph is
`#` is a comment. The list always ends with one `endOfText` token, one column past the last glyph.
-/

namespace BitCalculus

namespace Glyph

/-- Whether a glyph separates tokens. -/
def isSpace (g : Glyph) : Bool :=
  g.is ' ' || g.is '\t' || g.is '\r' || g.is '\n' || g.is '\x0b' || g.is '\x0c'

/-- The kind of the token that a reserved glyph is by itself. -/
def reservedKind? (g : Glyph) : Option TokenKind :=
  if g.is '(' then some .leftParen
  else if g.is ')' then some .rightParen
  else if g.is '\\' then some .lambda
  else none

/-- Whether a glyph may be part of a name. -/
def isNamePart (g : Glyph) : Bool :=
  !g.isSpace && g.reservedKind?.isNone

end Glyph

namespace Source

/-- What is left after dropping a run of glyphs is no longer than the whole. -/
theorem length_dropWhile_le {α : Type} (p : α → Bool) (l : List α) :
    (l.dropWhile p).length ≤ l.length :=
  (List.dropWhile_suffix p).sublist.length_le

/-- The tokens of the glyphs that follow `column` glyphs of line `line`. -/
def scan (source : Bytes) (line column : Nat) : List Glyph → List Token
  | [] => [⟨.endOfText, [], ⟨source, line, column + 1⟩⟩]
  | g :: rest =>
    let here : Location := ⟨source, line, column + 1⟩
    if g.is '\n' then scan source (line + 1) 0 rest
    else if column = 0 ∧ g.is '#' then
      let comment := rest.takeWhile fun c => !c.is '\n'
      scan source line (column + 1 + comment.length) (rest.dropWhile fun c => !c.is '\n')
    else match g.reservedKind? with
      | some kind => ⟨kind, g.bytes, here⟩ :: scan source line (column + 1) rest
      | none =>
        if g.isSpace then scan source line (column + 1) rest
        else
          let run := rest.takeWhile Glyph.isNamePart
          ⟨.name, .ofGlyphs (g :: run), here⟩ ::
            scan source line (column + 1 + run.length) (rest.dropWhile Glyph.isNamePart)
termination_by gs => gs.length
decreasing_by
  all_goals
    simp only [List.length_cons]
    have := length_dropWhile_le (fun c : Glyph => !c.is '\n') rest
    have := length_dropWhile_le Glyph.isNamePart rest
    omega

end Source

/-- The tokens of a program text; `source` names the text in every location. -/
def tokenize (source text : Bytes) : List Token :=
  Source.scan source 1 0 text.glyphs

end BitCalculus
