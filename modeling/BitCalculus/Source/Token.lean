import BitCalculus.Text.Quoted

/-!
# Tokens of program text

A program text is a sequence of parentheses, backslashes and names, each with the place where it
stands. Token lists that were not produced by the tokenizer may hold kinds outside these five;
they are kept by number.
-/

namespace BitCalculus

/-- A place in a program text: the name of the text, a line and a column. Lines and columns count
from one in text that was read; a place made by hand may hold any integers. -/
structure Location where
  source : Bytes
  line : Int
  column : Int
deriving DecidableEq

/-- A place as `source:line:column`. -/
def Location.text (l : Location) : Bytes :=
  l.source ++ lit ":" ++ .ofInt l.line ++ lit ":" ++ .ofInt l.column

/-- The kinds of tokens; `unknown` keeps the number of a kind that the language does not have. -/
inductive TokenKind where
  | leftParen
  | rightParen
  | lambda
  | name
  | endOfText
  | unknown (code : Int)
deriving DecidableEq

namespace TokenKind

/-- The kind with the given number. -/
def ofCode : Int → TokenKind
  | 0 => leftParen
  | 1 => rightParen
  | 2 => lambda
  | 3 => name
  | 4 => endOfText
  | code => unknown code

/-- The number of a kind. -/
def code : TokenKind → Int
  | leftParen => 0
  | rightParen => 1
  | lambda => 2
  | name => 3
  | endOfText => 4
  | unknown code => code

/-- How a kind is called in messages. -/
def text : TokenKind → Bytes
  | leftParen => lit "("
  | rightParen => lit ")"
  | lambda => lit "\\"
  | name => lit "identifier"
  | endOfText => lit "EOF"
  | unknown code => lit "token(" ++ .ofInt code ++ lit ")"

end TokenKind

/-- A token: its kind, its exact text and where it stands. -/
structure Token where
  kind : TokenKind
  text : Bytes
  location : Location
deriving DecidableEq

/-- How a token is shown: names are quoted, other tokens show their kind, and the place follows in
parentheses. -/
def Token.describe (t : Token) : Bytes :=
  (if t.kind = .name then t.text.quoted else t.kind.text) ++
    lit " (" ++ t.location.text ++ lit ")"

end BitCalculus
