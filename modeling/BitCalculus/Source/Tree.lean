import BitCalculus.Source.Token

/-!
# Parse trees

Programs as trees over names: a name, an abstraction over one parameter, or an application. Every
leaf keeps the token it came from.
-/

namespace BitCalculus

/-- A program as it was written: names, abstractions and applications. -/
inductive Tree where
  | name (token : Token)
  | lambda (start parameter : Token) (body : Tree)
  | apply (function argument : Tree)
deriving DecidableEq

/-- Where a tree starts. -/
def Tree.location : Tree → Location
  | .name token => token.location
  | .lambda start _ _ => start.location
  | .apply function _ => function.location

end BitCalculus
