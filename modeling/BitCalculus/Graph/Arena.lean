import BitCalculus.Graph.Expr
import BitCalculus.Graph.Key
import Std.Data.HashMap

/-!
# Interned expression graphs

A graph holds each distinct node once, in the order of creation. Three tables find a node by its
content, so building the same node again returns the one that is there. Node numbers come from a
counter that several graphs may share: an arena is a graph together with the last number given out.
-/

namespace BitCalculus

/-- The nodes of a graph in the order of creation, and the tables that find them by content: a slot
by its index, an abstraction by the number of its body and its packed captures, an application by
the numbers of its parts. -/
structure Graph where
  nodes : Array Expr := #[]
  slots : Std.HashMap Int Expr := {}
  lambdas : Std.HashMap (Nat × Bytes) Expr := {}
  applies : Std.HashMap (Nat × Nat) Expr := {}

namespace Graph

/-- The number of distinct nodes. -/
def size (g : Graph) : Nat :=
  g.nodes.size

/-- The least index from `low` up to but excluding `high` whose node has a number of at least `id`,
or `high` if there is none; node numbers ascend. -/
def searchFrom (g : Graph) (id low high : Nat) : Nat :=
  if low < high then
    let middle := (low + high) / 2
    match g.nodes[middle]? with
    | none => high
    | some node =>
      if node.id < id then searchFrom g id (middle + 1) high else searchFrom g id low middle
  else low
termination_by high - low

/-- The node with the given number, found by bisection. -/
def find? (g : Graph) (id : Nat) : Option Expr :=
  match g.nodes[g.searchFrom id 0 g.nodes.size]? with
  | some node => if node.id = id then some node else none
  | none => none

end Graph

/-- A graph and the last node number that was given out, to this graph or to another one. -/
structure Arena where
  graph : Graph := {}
  lastId : Nat := 0

namespace Arena

/-- The node of a slot. -/
def slot (a : Arena) (index : Int) : Expr × Arena :=
  match a.graph.slots[index]? with
  | some node => (node, a)
  | none =>
    let node := .slot (a.lastId + 1) index
    (node, {
      lastId := a.lastId + 1
      graph := { a.graph with
        nodes := a.graph.nodes.push node
        slots := a.graph.slots.insert index node } })

/-- The node of an abstraction that captures the given slots. -/
def lambda (a : Arena) (captured : List Int) (body : Expr) : Expr × Arena :=
  let key := (body.id, Key.ofSlots captured)
  match a.graph.lambdas[key]? with
  | some node => (node, a)
  | none =>
    let node :=
      .lambda (a.lastId + 1) captured body (Expr.sortReads captured) (Expr.joinSize body.size 0)
    (node, {
      lastId := a.lastId + 1
      graph := { a.graph with
        nodes := a.graph.nodes.push node
        lambdas := a.graph.lambdas.insert key node } })

/-- The node of an application. -/
def apply (a : Arena) (function argument : Expr) : Expr × Arena :=
  let key := (function.id, argument.id)
  match a.graph.applies[key]? with
  | some node => (node, a)
  | none =>
    let node :=
      .apply (a.lastId + 1) function argument (Expr.mergeReads function.reads argument.reads)
        (Expr.joinSize function.size argument.size)
    (node, {
      lastId := a.lastId + 1
      graph := { a.graph with
        nodes := a.graph.nodes.push node
        applies := a.graph.applies.insert key node } })

end Arena

end BitCalculus
