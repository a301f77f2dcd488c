import BitCalculus.Bits.Reader
import BitCalculus.Bits.Writer
import BitCalculus.Report.Stats
import BitCalculus.Run.Cache

/-!
# What a run works on

The state of a run: the cache, the two bit streams, the statistics if they are kept, the number of
forks, and a journal of everything that a run shows to the outside, in order.
-/

namespace BitCalculus

/-- What a run does to the outside: a bit is written, a bit is asked for and delivered or not, a
value is probed, a fork begins or ends. -/
inductive Event where
  | wrote (bit : Bool)
  | read (bit : Option Bool)
  | probed (value : Value)
  | forkBegan (number : Nat)
  | forkEnded (number : Nat)

/-- The state that evaluation threads through a run. -/
structure World where
  cache : Cache := {}
  output : Bits.Writer := {}
  input : Bits.Reader := .ofBytes []
  stats : Option Stats := none
  journal : Array Event := #[]
  forks : Nat := 0

namespace World

/-- Adds an event to the journal. -/
def note (w : World) (event : Event) : World :=
  match w with
  | ⟨cache, output, input, stats, journal, forks⟩ =>
    ⟨cache, output, input, stats, journal.push event, forks⟩

/-- Counts an event if statistics are kept. -/
def bump (w : World) (counter : Stats.Counter) : World :=
  match w with
  | ⟨cache, output, input, stats, journal, forks⟩ =>
    ⟨cache, output, input, stats.map (·.bump counter), journal, forks⟩

/-- Counts an application of a body if statistics are kept. -/
def countBody (w : World) (id : Nat) : World :=
  match w with
  | ⟨cache, output, input, stats, journal, forks⟩ =>
    ⟨cache, output, input, stats.map (·.countBody id), journal, forks⟩

/-- A number for a new value. -/
def nextId (w : World) : Nat × World :=
  match w with
  | ⟨cache, output, input, stats, journal, forks⟩ =>
    let (id, cache) := cache.next
    (id, ⟨cache, output, input, stats, journal, forks⟩)

/-- The number of a new fork. -/
def nextFork (w : World) : Nat × World :=
  match w with
  | ⟨cache, output, input, stats, journal, forks⟩ =>
    (forks + 1, ⟨cache, output, input, stats, journal, forks + 1⟩)

/-- Writes a bit. The sink's refusals are kept by the writer. -/
def write (w : World) (bit : Bool) : World :=
  match w with
  | ⟨cache, output, input, stats, journal, forks⟩ =>
    ⟨cache, (output.write bit).2, input, stats, journal.push (.wrote bit), forks⟩

/-- Reads a bit. -/
def read (w : World) : Option Bool × World :=
  match w with
  | ⟨cache, output, input, stats, journal, forks⟩ =>
    let (bit, input) := input.read
    (bit, ⟨cache, output, input, stats, journal.push (.read bit), forks⟩)

/-- The closure of a body over the given values. -/
def close (w : World) (values : List Value) (body : Expr) : Value × World :=
  match w with
  | ⟨cache, output, input, stats, journal, forks⟩ =>
    let (env, cache) := cache.environment values
    let (value, found, cache) := cache.closure env body
    (value, ⟨cache, output, input,
      stats.map (·.bump (if found then .closureHits else .closureMisses)), journal, forks⟩)

/-- Remembers the result of a pure application. -/
def store (w : World) (function argument result : Value) : Value × World :=
  match w with
  | ⟨cache, output, input, stats, journal, forks⟩ =>
    let (value, cache) := cache.store function argument result
    (value, ⟨cache, output, input, stats, journal, forks⟩)

end World

end BitCalculus
