import BitCalculus.Fault
import BitCalculus.Graph.Printer
import BitCalculus.Graph.Resolve
import BitCalculus.Source.Parse

/-!
# Programs

A program is a graph with a root, the name of its text and its free names. Compiling a text splits
it into tokens, parses them and interns the tree into a fresh graph.
-/

namespace BitCalculus

/-- A program ready to run: free name `i` belongs to slot `i` of the outermost environment. The root
is absent only in programs made by hand around a node that does not exist. -/
structure Program where
  source : Bytes
  graph : Graph
  root : Option Expr
  free : List Token

namespace Program

/-- The program of a text. Node numbers continue after `lastId`; the last one used is returned. -/
def compile (source text : Bytes) (lastId : Nat) : Except SyntaxError (Program × Nat) :=
  match parseText source text with
  | .error e => .error e
  | .ok tree =>
    let (root, free, arena) := Arena.intern { lastId } tree
    .ok (⟨source, arena.graph, some root, free⟩, arena.lastId)

/-- One line of a dump: a node in terms of the numbers of its parts. -/
def nodeLine : Expr → Bytes
  | .slot id index => lit "#" ++ .ofNat id ++ lit " = $" ++ .ofInt index
  | .lambda id captured body _ _ =>
    lit "#" ++ .ofNat id ++ lit " = " ++ Expr.header captured ++ lit "#" ++ .ofNat body.id
  | .apply id function argument _ _ =>
    lit "#" ++ .ofNat id ++ lit " = (#" ++ .ofNat function.id ++ lit " #" ++
      .ofNat argument.id ++ lit ")"

/-- The line that names a free variable. -/
def freeLine (token : Token) (slot : Nat) : Bytes :=
  lit "# $" ++ .ofNat slot ++ lit " = " ++ token.describe

/-- The graph of a program with each node on a line of its own, in the order of creation. -/
def dump (p : Program) : Except Fault Bytes :=
  match p.root with
  | none => .error .absentNode
  | some root => .ok <| .ofLines <|
    [lit "# " ++ p.source ++ lit ": " ++ .ofNat p.graph.size ++ lit " nodes"] ++
    p.free.mapIdx (fun slot token => freeLine token slot) ++
    p.graph.nodes.toList.map nodeLine ++
    [lit "root = #" ++ .ofNat root.id]

/-- The text of the root; an absent root is printed as such. -/
def rootText (p : Program) (limit : Int) : Bytes :=
  match p.root with
  | some root => root.serialize limit
  | none => if limit = 0 then [] else lit "<<nil>>"

end Program

end BitCalculus
