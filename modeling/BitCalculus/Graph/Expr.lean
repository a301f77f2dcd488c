import BitCalculus.Text.Bytes

/-!
# Expressions

Programs without names. A variable is a slot of the environment, an abstraction lists the slots of
the enclosing environment that it captures, and captured slot `i` becomes slot `i + 1` of its body,
whose slot `0` is the argument. Every node carries a number of its own, the slots that it reads and
its size, so that none of them is ever computed twice.
-/

namespace BitCalculus

/-- A node of the expression graph. `reads` lists the slots that evaluation of the node looks at;
`size` counts the nodes of the tree below and including it, up to a ceiling. -/
inductive Expr where
  | slot (id : Nat) (index : Int)
  | lambda (id : Nat) (captured : List Int) (body : Expr) (reads : List Int) (size : Nat)
  | apply (id : Nat) (function argument : Expr) (reads : List Int) (size : Nat)
deriving Inhabited

namespace Expr

/-- The number of a node; no two nodes share one. -/
def id : Expr → Nat
  | slot id _ => id
  | lambda id _ _ _ _ => id
  | apply id _ _ _ _ => id

/-- The slots that a node reads, ascending and without repetition. -/
def reads : Expr → List Int
  | slot _ index => [index]
  | lambda _ _ _ reads _ => reads
  | apply _ _ _ reads _ => reads

/-- The number of nodes of the tree below and including a node, up to a ceiling. -/
def size : Expr → Nat
  | slot _ _ => 1
  | lambda _ _ _ _ size => size
  | apply _ _ _ _ size => size

/-- Whether a node is an application. -/
def isApply : Expr → Bool
  | apply .. => true
  | _ => false

/-- The ceiling of all sizes. -/
def sizeCeiling : Nat := 0x40000000

/-- The size of a node over parts of the given sizes. -/
def joinSize (a b : Nat) : Nat :=
  min (a + b + 1) sizeCeiling

/-- The union of two ascending lists of slots, ascending again. -/
def mergeReads : List Int → List Int → List Int
  | [], ys => ys
  | x :: xs, [] => x :: xs
  | x :: xs, y :: ys =>
    if x < y then x :: mergeReads xs (y :: ys)
    else if y < x then y :: mergeReads (x :: xs) ys
    else x :: mergeReads xs ys
termination_by xs ys => xs.length + ys.length

/-- A list of slots in ascending order without repetition. -/
def sortReads (slots : List Int) : List Int :=
  slots.foldr (fun s sorted => mergeReads [s] sorted) []

end Expr

end BitCalculus
