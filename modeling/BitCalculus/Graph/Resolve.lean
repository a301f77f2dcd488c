import BitCalculus.Graph.Arena
import BitCalculus.Source.Tree

/-!
# From names to slots

Names are resolved in one pass over the tree. A scope lists the names met so far in order of first
occurrence; the position of a name is its slot. Under an abstraction a new scope starts with the
parameter in slot 0, and after the body the other names of that scope are resolved in the enclosing
one: those slots are captured.
-/

namespace BitCalculus

/-- The names of a scope in order of first occurrence, each as the token of that occurrence. -/
abbrev Scope := List Token

/-- The slot of a name, which joins the scope if it is new there. -/
def Scope.resolve (s : Scope) (token : Token) : Nat × Scope :=
  match s.findIdx? fun t => t.text == token.text with
  | some slot => (slot, s)
  | none => (s.length, s ++ [token])

/-- The slots of several names, resolved from left to right. -/
def Scope.resolveAll (s : Scope) : List Token → List Nat × Scope
  | [] => ([], s)
  | token :: tokens =>
    let (slot, s) := s.resolve token
    let (slots, s) := resolveAll s tokens
    (slot :: slots, s)

namespace Arena

/-- Interns a tree whose names belong to the scope `s`. -/
def internIn (a : Arena) (s : Scope) : Tree → Expr × Scope × Arena
  | .name token =>
    let (slot, s) := s.resolve token
    let (node, a) := a.slot slot
    (node, s, a)
  | .lambda _ parameter body =>
    let (body, inner, a) := a.internIn [parameter] body
    let (captured, s) := s.resolveAll inner.tail
    let (node, a) := a.lambda (captured.map Int.ofNat) body
    (node, s, a)
  | .apply function argument =>
    let (function, s, a) := a.internIn s function
    let (argument, s, a) := a.internIn s argument
    let (node, a) := a.apply function argument
    (node, s, a)

/-- Interns a whole program. The scope that is returned lists its free names: the `i`-th belongs to
slot `i` of the outermost environment. -/
def intern (a : Arena) (tree : Tree) : Expr × Scope × Arena :=
  a.internIn [] tree

end Arena

end BitCalculus
