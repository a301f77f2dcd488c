import BitCalculus.Files
import BitCalculus.Prompt

/-!
# What a call of the program leaves behind

A call reads its standard input and files, writes to two streams and may create files. All of that
is kept as a value. Debug lines go to one of the streams or to a file; where they share a stream
with the output bits, both appear in the order in which the run made them.
-/

namespace BitCalculus

/-- What differs between two calls that do the same: the names of runs, the moment the call began
and how long a run took. -/
structure Labels where
  runId : Nat → Bytes
  moment : Bytes
  duration : Bytes

/-- Where debug lines go. -/
inductive Channel where
  | stderr
  | stdout
  | file (path : Bytes)

/-- A trace file that is being written. -/
structure OpenTrace where
  path : Bytes
  trace : Trace := {}

/-- Writes a run to a trace file. -/
def OpenTrace.run (t : OpenTrace) (r : RunRecord) : OpenTrace :=
  { t with trace := t.trace.run r.source r.result }

/-- The state of a call: its files, what is left of its standard input, what was written to the two
streams, how many runs there were, and where debug lines, traces and typed lines go. `writer` is the
writer of the output bits, brought up to date as runs are shown. A full standard output takes
nothing. -/
structure Shell where
  labels : Labels
  files : Files := {}
  input : Bytes := []
  isFull : Bool := false
  stdout : Array UInt8 := #[]
  stderr : Array UInt8 := #[]
  runs : Nat := 0
  channel : Channel := .stderr
  trace : Option OpenTrace := none
  historyFile : Bytes := []
  lastTyped : Bytes := []
  writer : Bits.Writer := {}

namespace Shell

/-- Writes to the standard error stream. -/
def say (s : Shell) (text : Bytes) : Shell :=
  { s with stderr := s.stderr ++ text }

/-- Writes a line to the standard error stream. -/
def sayLine (s : Shell) (text : Bytes) : Shell :=
  s.say (text ++ [10])

/-- Writes to the standard output stream. -/
def print (s : Shell) (text : Bytes) : Shell :=
  if s.isFull then s else { s with stdout := s.stdout ++ text }

/-- Writes a log line. -/
def log (s : Shell) (threshold level : LogLevel) (message : Bytes) : Shell :=
  s.say (threshold.line level message)

/-- Writes a debug line. -/
def debug (s : Shell) (text : Bytes) : Shell :=
  match s.channel with
  | .stderr => s.sayLine text
  | .stdout => s.print (text ++ [10])
  | .file path => { s with files := s.files.append path (text ++ [10]) }

/-- Writes an output bit; a byte that it completes appears on the standard output. -/
def write (s : Shell) (bit : Bool) : Shell :=
  let before := s.writer.sink.stored.size
  let writer := (s.writer.write bit).2
  { s with writer, stdout := s.stdout ++ writer.sink.stored.extract before writer.sink.stored.size }

/-- Shows one thing that a run did. -/
def event (s : Shell) : Event → Shell
  | .wrote bit => s.write bit
  | .probed value => s.debug (debugLine (s.labels.runId s.runs) value)
  | _ => s

/-- Shows a run with its log lines; one whose names could not be bound does not show. -/
def record (s : Shell) (r : RunRecord) : Shell :=
  match r.result.allocated with
  | none => s
  | some allocated =>
    let s := { s with runs := s.runs + 1 }
    let run : Bytes := lit "run " ++ s.labels.runId s.runs
    let s := s.log r.level .debug (run ++ lit ": " ++ r.source ++ lit " with " ++ r.strategy)
    let s : Shell := r.result.journal.foldl event s
    let s := { s with trace := s.trace.map (OpenTrace.run · r) }
    s.log r.level .debug (run ++ lit " done: " ++ .ofNat allocated ++ lit " values allocated")

/-- Adds a typed line to the history, which has no empty line and no line twice in a row. -/
def remember (s : Shell) (text : Bytes) : Shell :=
  if text = [] ∨ text = s.lastTyped then s
  else { s with files := s.files.append s.historyFile (text ++ [10]), lastTyped := text }

/-- Shows a notice of the prompt. -/
def notice (s : Shell) : Notice → Shell
  | .typed text => s.remember text
  | .said text => s.say text
  | .ran r => s.record r

/-- Writes the end of the trace file, if there is one. -/
def closeTrace (s : Shell) : Shell :=
  match s.trace with
  | none => s
  | some t => { s with files := s.files.append t.path t.trace.close.written, trace := none }

end Shell

end BitCalculus
