import BitCalculus.Run.Session
import BitCalculus.Settings.Basic

/-!
# The prompt

At the prompt a program is entered line by line; every entry is run at once, and commands show or
change what the prompt works with. An entry in which a right parenthesis is missing is not run: it
asks for more lines. Main statement: `change_rejected`, a change of settings that is refused changes
nothing.
-/

namespace BitCalculus

/-- What the prompt works with: the session, the settings, the log level, and the last number given
to a node. -/
structure Desk where
  session : Session := { stats := some {} }
  settings : Settings := {}
  level : LogLevel := .info
  lastId : Nat := 0

/-- A run of a program as it is reported: the name of the text, the name of the strategy, the log
level at that time, and what the run came to. -/
structure RunRecord where
  source : Bytes
  strategy : Bytes
  level : LogLevel
  result : RunResult

/-- What the prompt shows and keeps: a line that was typed, a text, or a run with everything it
did. -/
inductive Notice where
  | typed (text : Bytes)
  | said (text : Bytes)
  | ran (record : RunRecord)

/-- How settings are read and shown. -/
structure SettingsFormat where
  decoder : Settings.Decoder
  dump : Settings → Bytes

namespace Desk

/-- Runs a compiled program. -/
def run (d : Desk) (p : Program) : RunRecord × Desk :=
  let { session, settings, level, lastId } := d
  let strategy := session.plan.strategy.name
  let (result, session) := session.run p
  (⟨p.source, strategy, level, result⟩, { session, settings, level, lastId })

/-- Takes over the strategy and the log level of the settings. -/
def applySettings (d : Desk) : Except Bytes Desk :=
  match d.settings.chosenStrategy with
  | .error message => .error message
  | .ok strategy =>
    match LogLevel.ofName? d.settings.logLevel with
    | none => .error (LogLevel.unknownMessage d.settings.logLevel)
    | some level =>
      .ok { d with level, session := { d.session with plan := { d.session.plan with strategy } } }

end Desk

namespace Prompt

/-- The mark in front of a result. -/
def resultMark : Bytes := lit "\x1b[31m=\x1b[0m "

/-- A text with a line feed behind it. -/
def line (text : Bytes) : Notice := .said (text ++ [10])

/-- Runs one entry. The first component tells whether more lines are needed. -/
def evaluate (d : Desk) (source text : Bytes) : Bool × List Notice × Desk :=
  match Program.compile source text d.lastId with
  | .error e =>
    if e.kind = .missingRightParen then (true, [], d) else (false, [line e.message], d)
  | .ok (p, lastId) =>
    let (record, d) := { d with lastId }.run p
    let answer := match record.result.error, record.result.value with
      | some e, _ => line e.message
      | none, some value => line (resultMark ++ value.text)
      | none, none => .said []
    (false, [.ran record, answer], d)

/-- The commands of the prompt with what they do. -/
def commandHelp : Bytes := .ofLines
  [lit ":help              list builtins",
    lit ":dump <expr>       print the de Bruijn graph of an expression",
    lit ":set <key> <value> change a setting (strategy, workers, min_fork_size, log_level)",
    lit ":settings          print the current settings",
    lit ":stats             print statistics of all runs so far"]

/-- Shows the graph of a program. -/
def dump (d : Desk) (text : Bytes) : Notice × Desk :=
  match Program.compile (lit "dump") text d.lastId with
  | .error e => (line e.message, d)
  | .ok (p, lastId) =>
    let shown := match p.dump with
      | .ok graph => .said (graph ++ p.rootText (-1) ++ [10])
      | .error fault => line fault.message
    (shown, { d with lastId })

/-- Changes a setting and takes it over. A change that is refused changes nothing. -/
def change [SizeUnits] (format : SettingsFormat) (d : Desk) (key value : Bytes) :
    List Notice × Desk :=
  match d.settings.change format.decoder key value with
  | .error e => ([line e.message], d)
  | .ok settings =>
    match { d with settings }.applySettings with
    | .error message => ([line message], { d with settings })
    | .ok d => ([], d)

/-- The statistics of all runs so far. -/
def report (d : Desk) : Notice :=
  match (d.session.stats.getD {}).writeReport none 0 with
  | (text, none) => .said text
  | (text, some fault) => .said (text ++ fault.message ++ [10])

/-- Obeys a command. -/
def command [SizeUnits] (format : SettingsFormat) (d : Desk) (text : Bytes) :
    List Notice × Desk :=
  let (name, argument) := text.trim.cut 32
  let argument := argument.trim
  if name = lit ":help" then ([.said (commandHelp ++ [10] ++ Builtin.helpText)], d)
  else if name = lit ":dump" then
    let (shown, d) := dump d argument
    ([shown], d)
  else if name = lit ":set" then
    let (key, value) := argument.cut 32
    change format d key value.trim
  else if name = lit ":settings" then ([.said (format.dump d.settings)], d)
  else if name = lit ":stats" then ([report d], d)
  else ([line (lit "unknown command " ++ name ++ lit ", try :help")], d)

/-- What is typed at the prompt: a line, or a text that was broken off. -/
inductive Entry where
  | line (text : Bytes)
  | interrupt (typed : Bytes)

/-- The entries that the glyphs of the standard input amount to. Every line end closes a line, the
end of the input closes one that was begun, and U+0003 breaks one off. -/
def entries (typed : Bytes) : List Glyph → List Entry
  | [] => if typed.isEmpty then [] else [.line typed]
  | g :: rest =>
    if g.point == some 10 || g.point == some 13 then .line typed :: entries [] rest
    else if g.point == some 3 then .interrupt typed :: entries [] rest
    else entries (typed ++ (if g.point.isSome then g.bytes else encodePoint replacementPoint)) rest

/-- Handles entries one after another. `pending` has the lines of an entry that is not complete yet,
and `count` tells how many texts were tried. An interrupt with nothing typed ends the prompt. -/
def handle [SizeUnits] (format : SettingsFormat) (d : Desk) (pending : Bytes) (count : Nat) :
    List Entry → List Notice × Desk
  | [] => ([], d)
  | .interrupt typed :: rest =>
    if (pending ++ typed).isEmpty then ([], d) else handle format d [] count rest
  | .line typed :: rest =>
    let text := pending ++ typed
    if text.trim.isEmpty then
      let (more, d) := handle format d pending count rest
      (.typed typed :: more, d)
    else if text.head? = some 58 then
      let (shown, d) := command format d text
      let (more, d) := handle format d pending count rest
      (.typed typed :: shown ++ more, d)
    else
      let (incomplete, shown, d) := evaluate d (lit "prompt#" ++ .ofNat (count + 1)) text
      let (more, d) :=
        handle format d (if incomplete then text ++ [10] else []) (count + 1) rest
      (.typed typed :: shown ++ more, d)

/-- What a prompt that reads the given input shows. -/
def run [SizeUnits] (format : SettingsFormat) (d : Desk) (input : Bytes) :
    List Notice × Desk :=
  handle format d [] 0 (entries [] input.glyphs)

/-- A change of settings that is refused changes nothing. -/
theorem change_rejected [SizeUnits] {format : SettingsFormat} {d : Desk} {key value : Bytes}
    {e : SettingsError} (h : d.settings.change format.decoder key value = .error e) :
    change format d key value = ([line e.message], d) := by
  simp [change, h]

end Prompt

end BitCalculus
