import BitCalculus.Bits.Pack

/-!
# Reading bits

A reader hands out the bits of its source, the most significant bit of each byte first. The source
is asked for a byte only when a bit of a byte not yet fetched is wanted. Once the source fails to
deliver a byte the reader is exhausted for good and never asks again.
-/

namespace BitCalculus.Bits

/-- The outcome of asking a source once: a byte, a failure, both, or neither. -/
structure Attempt where
  byte : Option UInt8
  fails : Bool
deriving DecidableEq

/-- A source as the outcomes it still has to offer, after which it is at its end, and the number of
times it was asked. -/
structure Source where
  outcomes : List Attempt
  asked : Nat := 0

namespace Source

/-- The source that delivers the given bytes one by one. -/
def ofBytes (bytes : Bytes) : Source :=
  { outcomes := bytes.map fun b => ⟨some b, false⟩ }

/-- Asks until a byte arrives or the source fails; `asked` counts the questions so far. A byte that
arrives together with a failure counts as delivered. -/
def fetchFrom : List Attempt → Nat → Option UInt8 × Source
  | [], asked => (none, ⟨[], asked + 1⟩)
  | ⟨some b, _⟩ :: rest, asked => (some b, ⟨rest, asked + 1⟩)
  | ⟨none, true⟩ :: rest, asked => (none, ⟨rest, asked + 1⟩)
  | ⟨none, false⟩ :: rest, asked => fetchFrom rest (asked + 1)

/-- Fetches the next byte, if the source delivers one. -/
def fetch (s : Source) : Option UInt8 × Source :=
  fetchFrom s.outcomes s.asked

end Source

/-- A reader: its source, the bits of the current byte not handed out yet, and whether the source
has failed. -/
structure Reader where
  source : Source
  ready : List Bool := []
  exhausted : Bool := false

namespace Reader

/-- The reader of the given bytes. -/
def ofBytes (bytes : Bytes) : Reader :=
  { source := .ofBytes bytes }

/-- The next bit, or `none` once the source has failed. -/
def read (r : Reader) : Option Bool × Reader :=
  if r.exhausted then (none, r)
  else match r.ready with
    | bit :: ready => (some bit, { r with ready })
    | [] =>
      match r.source.fetch with
      | (none, source) => (none, { source, exhausted := true })
      | (some b, source) => ((unpack b).head?, { source, ready := (unpack b).tail })

/-- An exhausted reader hands out nothing and stays as it is. -/
theorem read_of_exhausted {r : Reader} (h : r.exhausted = true) : r.read = (none, r) := by
  simp [read, h]

end Reader

end BitCalculus.Bits
