import BitCalculus.Number.Word
import BitCalculus.Text.Bytes

/-!
# Faults

What goes wrong when a graph, an environment or a stream is used in a way that compiled programs
never do: looking up a slot that is not there, naming a node that does not exist, writing a bit that
is none. Each fault has one message.
-/

namespace BitCalculus

/-- The ways in which an operation on hand-made data can fail. -/
inductive Fault where
  | indexOutOfRange (index : Int) (length : Nat)
  | absentNode
  | absentExpression
  | absentTree
  | notABit
  | impossibleCount
  | raised (text : Bytes)
deriving DecidableEq

/-- The message of a fault. A negative index is reported without the length. -/
def Fault.message : Fault → Bytes
  | indexOutOfRange index length =>
    let index := wrap64 index
    let start := lit "runtime error: index out of range [" ++ .ofInt index ++ lit "]"
    if index < 0 then start else start ++ lit " with length " ++ .ofNat length
  | absentNode => lit "runtime error: invalid memory address or nil pointer dereference"
  | absentExpression => lit "evaluate: unknown expression <nil>"
  | absentTree => lit "transform: unknown syntax node <nil>"
  | notABit => lit "bitio: bit must be 0 or 1"
  | impossibleCount => lit "runtime error: makeslice: cap out of range"
  | raised text => text

/-- The element of a list at an integer position. -/
def elementAt {α : Type} (values : List α) (index : Int) : Except Fault α :=
  if 0 ≤ index then
    match values[index.toNat]? with
    | some value => .ok value
    | none => .error (.indexOutOfRange index values.length)
  else .error (.indexOutOfRange index values.length)

end BitCalculus
