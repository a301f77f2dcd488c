import BitCalculus.Bits.Pack
import BitCalculus.Fault

/-!
# Writing bits

A writer puts bits into a byte, the most significant first, and hands the byte to its sink as soon
as eight bits are there. A sink may refuse a byte; the byte is then lost as a whole, later bytes are
not shifted, and the first refusal is remembered. Closing a writer drops an incomplete byte.
-/

namespace BitCalculus.Bits

/-- Where complete bytes go. `refuses n` is the error of the `n`-th write, counted from one, if
that write fails. `flushError` is present for sinks that can be flushed: the error of a flush, if
flushing fails. The sink was offered the bytes `offered` and keeps those that it did not refuse. -/
structure Sink where
  refuses : Nat → Option Bytes := fun _ => none
  flushError : Option (Option Bytes) := none
  offered : Array UInt8 := #[]
  stored : Array UInt8 := #[]
  flushes : Nat := 0

namespace Sink

/-- The number of bytes that the sink was offered. -/
def writes (s : Sink) : Nat :=
  s.offered.size

/-- Offers a byte to the sink. -/
def write (s : Sink) (b : UInt8) : Option Bytes × Sink :=
  match s.refuses (s.writes + 1) with
  | some error => (some error, { s with offered := s.offered.push b })
  | none => (none, { s with offered := s.offered.push b, stored := s.stored.push b })

/-- Flushes the sink if it can be flushed. -/
def flush (s : Sink) : Option Bytes × Sink :=
  match s.flushError with
  | some error => (error, { s with flushes := s.flushes + 1 })
  | none => (none, s)

end Sink

/-- A writer: its sink, the byte that is being filled, the place in it where the next bit goes
(seven is the most significant), and the first error that the sink reported. -/
structure Writer where
  sink : Sink := {}
  buffer : UInt8 := 0
  place : Fin 8 := Fin.last 7
  firstError : Option Bytes := none

namespace Writer

/-- The number of bits that wait for their byte to fill up. -/
def pending (w : Writer) : Nat :=
  7 - w.place.val

/-- Hands a complete byte to the sink and starts the next one. -/
def emit (w : Writer) (b : UInt8) : Option Bytes × Writer :=
  let (error, sink) := w.sink.write b
  (error, { sink, firstError := w.firstError.or error })

/-- Writes one bit. The answer is the sink's error, if this bit completed a byte that the sink
refused. -/
def write (w : Writer) (bit : Bool) : Option Bytes × Writer :=
  let buffer := w.buffer ||| (bit.toUInt8 <<< w.place.val.toUInt8)
  if w.place = 0 then w.emit buffer
  else (none, { w with buffer, place := w.place - 1 })

/-- Writes the bit with the given number; only zero and one are bits. -/
def writeNumber (w : Writer) : Nat → Except Fault (Option Bytes × Writer)
  | 0 => .ok (w.write false)
  | 1 => .ok (w.write true)
  | _ => .error .notABit

/-- Drops an incomplete byte and flushes the sink. The answer is the number of dropped bits and
the error of the flush, or else the first error of the sink. -/
def close (w : Writer) : (Nat × Option Bytes) × Writer :=
  let (error, sink) := w.sink.flush
  ((w.pending, error.or w.firstError), { sink, firstError := w.firstError })

/-- Writes zero bits until no bit waits any more. -/
def pad (w : Writer) : Writer :=
  (List.replicate ((8 - w.pending) % 8) false).foldl (fun w bit => (w.write bit).2) w

end Writer

end BitCalculus.Bits
