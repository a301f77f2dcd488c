import BitCalculus.Files
import BitCalculus.Log
import BitCalculus.Number.Size
import BitCalculus.Run.Strategy

/-!
# Settings

What can be chosen about a run besides the program: the strategy, the log level, where debug lines
and traces go, and limits. Settings are valid if every choice is a possible one. Changing a setting
decodes it on top of the settings and keeps the result only if it is valid.
-/

namespace BitCalculus

/-- The settings of a run. Names and sizes are kept as they were written. -/
structure Settings where
  strategy : Bytes := lit "sequential"
  workers : Int := 0
  minForkSize : Int := 16
  logLevel : Bytes := lit "info"
  debugOutput : Bytes := lit "stderr"
  trace : Bool := false
  traceFolder : Bytes := lit "."
  stats : Bool := false
  maxSourceSize : Bytes := lit "64MiB"
  maxStack : Bytes := []
  historyFile : Bytes := lit ".bitlambda-history.tmp"
deriving DecidableEq

/-- Why settings are refused: they cannot be read or decoded, or one of them is impossible. -/
inductive SettingsError where
  | unreadable (reason : Bytes)
  | undecodable (name reason : Bytes)
  | unknownStrategy (message : Bytes)
  | negativeWorkers (count : Int)
  | negativeForkSize (size : Int)
  | unknownLogLevel (name : Bytes)
  | sourceSize (reason : Bytes)
  | stackSize (reason : Bytes)
deriving DecidableEq

/-- The report of refused settings. -/
def SettingsError.message : SettingsError → Bytes
  | unreadable reason => lit "settings: " ++ reason
  | undecodable name reason => lit "settings " ++ name ++ lit ": " ++ reason
  | unknownStrategy message => message
  | negativeWorkers count => lit "workers must not be negative, got " ++ .ofInt count
  | negativeForkSize size => lit "min_fork_size must not be negative, got " ++ .ofInt size
  | unknownLogLevel name => LogLevel.unknownMessage name
  | sourceSize reason => lit "max_source_size: " ++ reason
  | stackSize reason => lit "max_stack: " ++ reason

namespace Settings

/-- The strategy that the settings choose. -/
def chosenStrategy (s : Settings) : Except Bytes Strategy :=
  Strategy.ofName s.strategy s.workers s.minForkSize

/-- A way to decode a text on top of settings: the reason why it failed, if it did, and the settings
as they are left then. A failed decoding may have changed some of them. -/
abbrev Decoder := Bytes → Settings → Option Bytes × Settings

variable [SizeUnits]

/-- The greatest size of a program text; zero is no limit. -/
def maxSourceBytes (s : Settings) : Except SettingsError Int :=
  if s.maxSourceSize = [] then .ok 0
  else match SizeUnits.parse s.maxSourceSize with
    | .ok n => .ok n
    | .error reason => .error (.sourceSize reason)

/-- The size of the stack, if one is chosen. -/
def stackBytes (s : Settings) : Except SettingsError (Option Int) :=
  if s.maxStack = [] then .ok none
  else match SizeUnits.parse s.maxStack with
    | .ok n => .ok (some n)
    | .error reason => .error (.stackSize reason)

/-- The first impossible choice. -/
def firstFault (s : Settings) : Option SettingsError :=
  match s.chosenStrategy with
  | .error message => some (.unknownStrategy message)
  | .ok _ =>
    if s.workers < 0 then some (.negativeWorkers s.workers)
    else if s.minForkSize < 0 then some (.negativeForkSize s.minForkSize)
    else if (LogLevel.ofName? s.logLevel).isNone then some (.unknownLogLevel s.logLevel)
    else match s.maxSourceBytes, s.stackBytes with
      | .error e, _ => some e
      | _, .error e => some e
      | .ok _, .ok _ => none

/-- Whether every choice is possible. -/
def IsValid (s : Settings) : Prop :=
  s.firstFault = none

/-- Decodes a text with the given name on top of settings and checks the result. The settings are
returned as they are left, whether or not they are refused. -/
def decode (decoder : Decoder) (name text : Bytes) (s : Settings) :
    Option SettingsError × Settings :=
  match decoder text s with
  | (some reason, s) => (some (.undecodable name reason), s)
  | (none, s) => (s.firstFault, s)

/-- Reads a settings file on top of settings. -/
def load (decoder : Decoder) (files : Files) (path : Bytes) (s : Settings) :
    Option SettingsError × Settings :=
  match files.read path with
  | .error reason => (some (.unreadable reason), s)
  | .ok text => s.decode decoder path text

/-- Changes one setting as a line of a settings file would. -/
def change (decoder : Decoder) (key value : Bytes) (s : Settings) :
    Except SettingsError Settings :=
  match s.decode decoder key (key ++ lit ": " ++ value) with
  | (some e, _) => .error e
  | (none, s) => .ok s

/-- A changed setting leaves valid settings. -/
theorem isValid_of_change {decoder : Decoder} {key value : Bytes} {s t : Settings}
    (h : s.change decoder key value = .ok t) : t.IsValid := by
  unfold change decode at h
  split at h
  next => cases h
  next u heq =>
    cases h
    split at heq
    next => cases heq
    next =>
      obtain ⟨hf, rfl⟩ := Prod.mk.inj heq
      exact hf

end Settings

end BitCalculus
