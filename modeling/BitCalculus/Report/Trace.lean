import BitCalculus.Text.JsonString

/-!
# Trace files

A trace file is a JSON array of events that a trace viewer can show. It is written piece by piece:
an opening bracket, then each event with a separator in front of all but the first, and a closing
bracket at the end. A stretch of work contributes an event where it begins and one where it ends,
also when the work in between failed.
-/

namespace BitCalculus

/-- One event of a trace: what happened, when, and in which process and thread. -/
structure TraceEvent where
  name : Bytes
  category : Bytes
  phase : Bytes
  time : Int := 0
  process : Int := 0
  thread : Int := 0
deriving DecidableEq

/-- An event as a JSON object. -/
def TraceEvent.json (strays : JsonString.Strays) (e : TraceEvent) : Bytes :=
  lit "\x7b\"name\":" ++ e.name.jsonString strays ++
    lit ",\"cat\":" ++ e.category.jsonString strays ++
    lit ",\"ph\":" ++ e.phase.jsonString strays ++ lit ",\"ts\":" ++ .ofInt e.time ++
    lit ",\"pid\":" ++ .ofInt e.process ++ lit ",\"tid\":" ++ .ofInt e.thread ++
    lit ",\"s\":\"g\"\x7d"

/-- A trace file: what was written to it so far, whether the next event is the first one, whether
the file was closed, and how stray bytes in its texts are written. -/
structure Trace where
  written : Bytes := lit "["
  isFirst : Bool := true
  closed : Bool := false
  strays : JsonString.Strays := .asCharacter

namespace Trace

/-- Writes an event. -/
def event (t : Trace) (e : TraceEvent) : Trace :=
  { t with
    written := t.written ++ (if t.isFirst then [] else lit ",\n") ++ e.json t.strays
    isFirst := false }

/-- Ends the array and closes the file. -/
def close (t : Trace) : Trace :=
  { t with written := t.written ++ lit "]\n", closed := true }

/-- Writes an event that happens now; times are counted from the opening of the trace. -/
def half (t : Trace) (now : Int) (name category phase : Bytes) (thread process : Int) : Trace :=
  t.event { name, category, phase, time := now, process, thread }

/-- Writes the beginning of a stretch of work, does the work, and writes its end whatever the work
came to. The two are written at the given times. -/
def durationBetween {α : Type} (t : Trace) (began ended : Int) (name category : Bytes)
    (work : Trace → α × Trace) : α × Trace :=
  let (result, t) := work (t.half began name category (lit "B") 0 0)
  (result, t.half ended name category (lit "E") 0 0)

/-- A stretch of work while the clock stands still. -/
def duration {α : Type} (t : Trace) (name category : Bytes) (work : Trace → α × Trace) :
    α × Trace :=
  t.durationBetween 0 0 name category work

/-- Writes several events in order. -/
def events (t : Trace) (es : List TraceEvent) : Trace :=
  es.foldl event t

end Trace

end BitCalculus
