import BitCalculus.Source.Tree
import BitCalculus.Source.Tokenize

/-!
# Parsing

A program is a chain of items. An item is a name, a parenthesised chain, or an abstraction, whose
body reaches as far right as possible. The items of a chain are applied from left to right. The
parser stops at the first `endOfText`; every step hands back a shorter rest, which is why it ends.
-/

namespace BitCalculus

/-- Why a text is no program; `other` keeps the number of a kind that the parser never reports. -/
inductive SyntaxFault where
  | endReached
  | extraRightParen
  | missingRightParen
  | missingParameter
  | other (code : Int)
deriving DecidableEq

namespace SyntaxFault

/-- The kind with the given number. -/
def ofCode : Int → SyntaxFault
  | 0 => endReached
  | 1 => extraRightParen
  | 2 => missingRightParen
  | 3 => missingParameter
  | code => other code

/-- The number of a kind. -/
def code : SyntaxFault → Int
  | endReached => 0
  | extraRightParen => 1
  | missingRightParen => 2
  | missingParameter => 3
  | other code => code

/-- The short name of a kind. -/
def text : SyntaxFault → Bytes
  | endReached => lit "unexpected EOF reached"
  | extraRightParen => lit "extra )"
  | missingRightParen => lit "missing )"
  | missingParameter => lit "missing argument for lambda"
  | other code => lit "syntax error " ++ .ofInt code

/-- The sentence that reports a kind. -/
def sentence : SyntaxFault → Bytes
  | endReached => lit "Unexpected EOF found when parsing expression."
  | extraRightParen => lit "Extra ) in expression."
  | missingRightParen => lit "Missing ) in expression."
  | missingParameter => lit "Missing argument for lambda in expression."
  | other code => text (other code)

end SyntaxFault

/-- A syntax error and the token it is reported at. -/
structure SyntaxError where
  kind : SyntaxFault
  location : Location
deriving DecidableEq

/-- The report of a syntax error. -/
def SyntaxError.message (e : SyntaxError) : Bytes :=
  lit "At " ++ e.location.text ++ lit ": " ++ e.kind.sentence

namespace Parse

/-- A tree and the tokens after it, of which there are fewer than `bound`. -/
abbrev Parsed (bound : Nat) := { r : Tree × List Token // r.2.length < bound }

mutual

/-- Reads one item: a name, a parenthesised chain or an abstraction. The end of the tokens is
reported at `stop`. -/
def item (stop : Location) (tokens : List Token) : Except SyntaxError (Parsed tokens.length) :=
  match tokens with
  | [] => .error ⟨.endReached, stop⟩
  | token :: rest =>
    match token.kind with
    | .name => .ok ⟨(.name token, rest), by simp⟩
    | .leftParen =>
      match chain stop rest with
      | .error e => .error e
      | .ok ⟨(tree, close :: after), h⟩ =>
        if close.kind = .rightParen then
          .ok ⟨(tree, after), by simp only [List.length_cons] at h ⊢; omega⟩
        else .error ⟨.missingRightParen, token.location⟩
      | .ok ⟨(_, []), _⟩ => .error ⟨.missingRightParen, token.location⟩
    | .rightParen => .error ⟨.extraRightParen, token.location⟩
    | .lambda =>
      match rest with
      | [] => .error ⟨.missingParameter, token.location⟩
      | parameter :: rest =>
        if parameter.kind = .name then
          match chain stop rest with
          | .error e => .error e
          | .ok ⟨(body, after), h⟩ =>
            .ok ⟨(.lambda token parameter body, after), by
              simp only [List.length_cons] at h ⊢; omega⟩
        else .error ⟨.missingParameter, token.location⟩
    | .endOfText | .unknown _ => .error ⟨.endReached, token.location⟩
termination_by (tokens.length, 0)

/-- Reads a chain: one item, then more items applied from left to right. -/
def chain (stop : Location) (tokens : List Token) : Except SyntaxError (Parsed tokens.length) :=
  match item stop tokens with
  | .error e => .error e
  | .ok ⟨(first, rest), h⟩ =>
    match applied stop first rest with
    | .error e => .error e
    | .ok ⟨r, h'⟩ => .ok ⟨r, by simp only at h; omega⟩
termination_by (tokens.length, 1)

/-- Applies `function` to the items up to a right parenthesis or the end. -/
def applied (stop : Location) (function : Tree) (tokens : List Token) :
    Except SyntaxError (Parsed (tokens.length + 1)) :=
  match tokens with
  | [] => .ok ⟨(function, []), by simp⟩
  | token :: rest =>
    if token.kind = .rightParen then .ok ⟨(function, token :: rest), by simp⟩
    else match item stop (token :: rest) with
      | .error e => .error e
      | .ok ⟨(argument, after), h⟩ =>
        match applied stop (.apply function argument) after with
        | .error e => .error e
        | .ok ⟨r, h'⟩ => .ok ⟨r, by simp only at h; omega⟩
termination_by (tokens.length, 1)

end

end Parse

/-- The tokens in front of the first `endOfText`. -/
def programTokens (tokens : List Token) : List Token :=
  tokens.takeWhile fun t => t.kind != .endOfText

/-- Where the first `endOfText` stands; a list without one ends at no particular place. -/
def endLocation (tokens : List Token) : Location :=
  match tokens.find? fun t => t.kind == .endOfText with
  | some t => t.location
  | none => ⟨[], 0, 0⟩

/-- The tree of a whole program. -/
def parse (tokens : List Token) : Except SyntaxError Tree :=
  match Parse.chain (endLocation tokens) (programTokens tokens) with
  | .error e => .error e
  | .ok ⟨(tree, []), _⟩ => .ok tree
  | .ok ⟨(_, extra :: _), _⟩ => .error ⟨.extraRightParen, extra.location⟩

/-- The tree of a program text. -/
def parseText (source text : Bytes) : Except SyntaxError Tree :=
  parse (tokenize source text)

end BitCalculus
