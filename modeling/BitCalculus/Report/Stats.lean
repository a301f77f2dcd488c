import BitCalculus.Fault
import BitCalculus.Graph.Arena
import BitCalculus.Graph.Printer

/-!
# Statistics

Counters of one or more runs: how often closures and results were found in the cache, how often
applications forked, and how often each abstraction body was applied. The report lists the counters
and the bodies that were applied most.
-/

namespace BitCalculus

/-- The counters of one or more runs. `bodies` counts the applications of each abstraction body. -/
structure Stats where
  closureHits : Nat := 0
  closureMisses : Nat := 0
  applyHits : Nat := 0
  applyMisses : Nat := 0
  applyUncached : Nat := 0
  forks : Nat := 0
  forksDeclined : Nat := 0
  bodies : Std.HashMap Nat Nat := {}

namespace Stats

/-- The counters by name. -/
inductive Counter where
  | closureHits
  | closureMisses
  | applyHits
  | applyMisses
  | applyUncached
  | forks
  | forksDeclined
deriving DecidableEq

/-- The value of a counter. -/
def get (s : Stats) : Counter → Nat
  | .closureHits => s.closureHits
  | .closureMisses => s.closureMisses
  | .applyHits => s.applyHits
  | .applyMisses => s.applyMisses
  | .applyUncached => s.applyUncached
  | .forks => s.forks
  | .forksDeclined => s.forksDeclined

/-- The statistics with one counter changed. -/
def set (s : Stats) (counter : Counter) (n : Nat) : Stats :=
  match counter with
  | .closureHits => { s with closureHits := n }
  | .closureMisses => { s with closureMisses := n }
  | .applyHits => { s with applyHits := n }
  | .applyMisses => { s with applyMisses := n }
  | .applyUncached => { s with applyUncached := n }
  | .forks => { s with forks := n }
  | .forksDeclined => { s with forksDeclined := n }

/-- Counts one more event. -/
def bump (s : Stats) (counter : Counter) : Stats :=
  s.set counter (s.get counter + 1)

/-- Moves a counter by an amount; counters are unsigned 64-bit words. -/
def add (s : Stats) (counter : Counter) (amount : Int) : Stats :=
  s.set counter ((s.get counter + amount) % wordCount).toNat

/-- Counts one more application of a body. -/
def countBody : Stats → Nat → Stats
  | ⟨ch, cm, ah, am, au, f, fd, bodies⟩, id =>
    ⟨ch, cm, ah, am, au, f, fd, bodies.alter id fun n => some (n.getD 0 + 1)⟩

/-- How often a body was applied. -/
def bodyCount (s : Stats) (id : Nat) : Nat :=
  s.bodies.getD id 0

/-- Whether the first body and its count rank before the second: by descending count, and by
ascending number among equals. -/
def ranksBefore (a b : Nat × Nat) : Bool :=
  a.2 > b.2 || (a.2 == b.2 && a.1 ≤ b.1)

/-- All bodies that were applied with their counts, most often applied first. -/
def ranking (s : Stats) : List (Nat × Nat) :=
  s.bodies.toList.mergeSort ranksBefore

/-- The greatest number of bodies that can be asked for. -/
def rankingCeiling : Nat := 0x200000000000

/-- The numbers of at most `n` bodies, most often applied first. -/
def hottest (s : Stats) (n : Int) : Except Fault (List Nat) :=
  if n < 0 ∨ rankingCeiling < n then .error .impossibleCount
  else .ok ((s.ranking.take n.toNat).map Prod.fst)

/-- The widest body that a report shows in full. -/
def bodyWidth : Nat := 60

/-- A body as a report shows it: cut off if it is too wide, `?` if the graph does not have it. -/
def bodyText (graph : Option Graph) (id : Nat) : Bytes :=
  match graph.bind (·.find? id) with
  | none => lit "?"
  | some e =>
    let text := e.serialize bodyWidth
    if bodyWidth < text.length then text.take (bodyWidth - 3) ++ lit "..." else text

/-- The line of one body in a report. -/
def bodyLine (s : Stats) (graph : Option Graph) (id : Nat) : Bytes :=
  lit "  " ++ .alignRight 8 (.ofNat (s.bodyCount id)) ++ lit "  #" ++ .ofNat id ++ lit "  " ++
    bodyText graph id

/-- The lines of the counters in a report. -/
def counterLines (s : Stats) : List Bytes :=
  [lit "closures: " ++ .ofNat s.closureHits ++ lit " hits, " ++ .ofNat s.closureMisses ++
      lit " created",
    lit "applications: " ++ .ofNat s.applyHits ++ lit " cache hits, " ++ .ofNat s.applyMisses ++
      lit " memoized, " ++ .ofNat s.applyUncached ++ lit " impure",
    lit "forks: " ++ .ofNat s.forks ++ lit " taken, " ++ .ofNat s.forksDeclined ++
      lit " declined"]

/-- Writes the counters and then the `n` bodies applied most, printed with the help of `graph`: what
was written, and the fault that broke it off after the counters, if one did. -/
def writeReport (s : Stats) (graph : Option Graph) (n : Int) : Bytes × Option Fault :=
  match s.hottest n with
  | .error fault => (.ofLines s.counterLines, some fault)
  | .ok ids =>
    let hot :=
      if ids.isEmpty then []
      else lit "hottest lambda bodies:" :: ids.map (s.bodyLine graph)
    (.ofLines (s.counterLines ++ hot), none)

/-- A report that was written to its end. -/
def report (s : Stats) (graph : Option Graph) (n : Int) : Except Fault Bytes :=
  match s.writeReport graph n with
  | (text, none) => .ok text
  | (_, some fault) => .error fault

end Stats

end BitCalculus
