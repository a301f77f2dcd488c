import BitCalculus.Text.Bytes

/-!
# What can be wrong with a YAML text

Each problem has one wording. An error also tells on which line the problem lies; nothing is said
about a problem on the first line.
-/

namespace BitCalculus.Yaml

/-- The problems that stop the reading of a YAML text. -/
inductive Problem where
  | badLeadingByte
  | incompleteCharacter
  | badTrailingByte
  | overlongCharacter
  | badCodePoint
  | controlCharacter
  | noColon
  | entryNotAllowed
  | keyNotAllowed
  | valueNotAllowed
  | badStart
  | unexpectedEnd
  | unexpectedDocument
  | unknownEscape
  | notHexadecimal
  | badEscapedPoint
  | tabInIndentation
  | noContent
  | noKey
  | noDash
  | noBracket
  | noBrace
deriving DecidableEq

/-- The wording of a problem. -/
def Problem.text : Problem → Bytes
  | badLeadingByte => lit "invalid leading UTF-8 octet"
  | incompleteCharacter => lit "incomplete UTF-8 octet sequence"
  | badTrailingByte => lit "invalid trailing UTF-8 octet"
  | overlongCharacter => lit "invalid length of a UTF-8 sequence"
  | badCodePoint => lit "invalid Unicode character"
  | controlCharacter => lit "control characters are not allowed"
  | noColon => lit "could not find expected ':'"
  | entryNotAllowed => lit "block sequence entries are not allowed in this context"
  | keyNotAllowed => lit "mapping keys are not allowed in this context"
  | valueNotAllowed => lit "mapping values are not allowed in this context"
  | badStart => lit "found character that cannot start any token"
  | unexpectedEnd => lit "found unexpected end of stream"
  | unexpectedDocument => lit "found unexpected document indicator"
  | unknownEscape => lit "found unknown escape character"
  | notHexadecimal => lit "did not find expected hexdecimal number"
  | badEscapedPoint => lit "found invalid Unicode character escape code"
  | tabInIndentation => lit "found a tab character that violates indentation"
  | noContent => lit "did not find expected node content"
  | noKey => lit "did not find expected key"
  | noDash => lit "did not find expected '-' indicator"
  | noBracket => lit "did not find expected ',' or ']'"
  | noBrace => lit "did not find expected ',' or '\x7d'"

/-- A problem and the line it is reported on; line zero is not shown. -/
structure Error where
  line : Nat
  problem : Problem
deriving DecidableEq

namespace Error

/-- A problem inside a token. It is reported on the line where the token starts, or on the line
reached if the token starts on the first line. Lines are counted from zero here. -/
def inToken (start reached : Nat) (problem : Problem) : Error :=
  ⟨if start ≠ 0 then start + 1 else if reached ≠ 0 then reached + 1 else 0, problem⟩

/-- A problem with the order of tokens. It is reported on the line before the collection starts, or
before the token if the collection starts on the first line. Lines are counted from zero here. -/
def betweenTokens (start reached : Nat) (problem : Problem) : Error :=
  ⟨if start ≠ 0 then start else reached, problem⟩

/-- The report of an error. -/
def message (e : Error) : Bytes :=
  lit "yaml: " ++ (if e.line = 0 then [] else lit "line " ++ .ofNat e.line ++ lit ": ") ++
    e.problem.text

end Error

end BitCalculus.Yaml
