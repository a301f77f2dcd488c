import BitCalculus.CommandLine.Options
import BitCalculus.CommandLine.Shell
import BitCalculus.Settings.Document
import BitCalculus.Sources

/-!
# A call of the program

What happens from the arguments to the exit code: options and settings are read, streams and files
are opened, the program is loaded, compiled and run, and the prompt follows if it was asked for. A
program that cannot be compiled or bound ends with code one, everything else that fails with two.
-/

namespace BitCalculus

namespace CommandLine

/-- How settings are read and shown on the command line. -/
def format : SettingsFormat := ⟨Settings.ofYaml, Settings.dump⟩

/-- The exit codes. -/
def success : Nat := 0

/-- The exit code for a program that is refused before it runs. -/
def refused : Nat := 1

/-- The exit code for everything else that fails. -/
def failed : Nat := 2

/-- The settings with the options on top. -/
def withOptions (o : Options) (s : Settings) : Settings :=
  { s with
    strategy := match o.parallel with
      | none => s.strategy
      | some true => lit "parallel"
      | some false => lit "sequential"
    workers := o.workers.getD s.workers
    stats := o.stats.getD s.stats
    trace := o.trace.getD s.trace }

section Call

variable [SizeUnits] [Decoders]

/-- The settings that a call works with. -/
def settings (o : Options) (files : Files) : Except SettingsError Settings :=
  let loaded : Except SettingsError Settings :=
    if o.config = [] then .ok {}
    else match Settings.load format.decoder files o.config {} with
      | (some e, _) => .error e
      | (none, s) => .ok s
  match loaded with
  | .error e => .error e
  | .ok s =>
    let s := withOptions o s
    match s.firstFault with
    | some e => .error e
    | none => .ok s

/-- Whether a program is given by the arguments. -/
def hasSources (o : Options) : Bool :=
  !o.commands.isEmpty || !o.files.isEmpty

/-- The bytes of the input file, if one is given; a folder has none. -/
def inputFile (o : Options) (files : Files) : Except Bytes (Option Bytes) :=
  if o.input = [] then .ok none
  else match files.openEntry o.input with
    | .error e => .error (Files.openMessage o.input e)
    | .ok .folder => .ok (some [])
    | .ok (.file content) => .ok (some content)

/-- Where the input bits come from if not from the standard input. -/
def inputBytes (o : Options) (files : Files) : Except Bytes (Option Bytes) :=
  match inputFile o files with
  | .error e => .error e
  | .ok (some content) => .ok (some content)
  | .ok none => .ok (if o.interactive || !hasSources o then some [] else none)

/-- Creates a file that the call writes to. -/
def createFile (shell : Shell) (path : Bytes) : Except Bytes Shell :=
  match shell.files.create path with
  | .error e => .error (Files.openMessage path e)
  | .ok files => .ok { shell with files }

/-- Opens the channel for debug lines. -/
def openChannel (s : Settings) (shell : Shell) : Except Bytes Shell :=
  if s.debugOutput = [] ∨ s.debugOutput = lit "stderr" then .ok { shell with channel := .stderr }
  else if s.debugOutput = lit "stdout" then .ok { shell with channel := .stdout }
  else match createFile shell s.debugOutput with
    | .error e => .error e
    | .ok shell => .ok { shell with channel := .file s.debugOutput }

/-- Opens the trace file, if one is wanted. -/
def openTrace (s : Settings) (level : LogLevel) (shell : Shell) : Except Bytes Shell :=
  if s.trace then
    let path := pathIn s.traceFolder (lit "trace_" ++ shell.labels.moment ++ lit ".json")
    match createFile shell path with
    | .error e => .error (lit "trace: " ++ e)
    | .ok shell =>
      let shell := { shell with trace := some { path } }
      .ok (shell.log level .info (lit "writing trace to " ++ path))
  else .ok shell

/-- The report of the stack size that is set, if one is. -/
def stackReport (s : Settings) (level : LogLevel) (shell : Shell) : Shell :=
  match s.stackBytes with
  | .ok (some n) =>
    if 0 < n then shell.log level .debug (lit "max stack set to " ++ SizeUnits.humanBinary n.toNat)
    else shell
  | _ => shell

/-- The sink of the output bits. -/
def outputSink (shell : Shell) : Bits.Sink :=
  if shell.isFull then
    { refuses := fun _ => some (lit "write /dev/stdout: no space left on device") }
  else {}

/-- The program text of a call with its name, and what is left of the standard input. -/
def loadProgram (o : Options) (limit : Int) (level : LogLevel) (shell : Shell) :
    Except LoadError (Bytes × Bytes) × Shell :=
  if !o.commands.isEmpty then (.ok (lit "command line", .join [10] o.commands), shell)
  else
    let (name, paths) :=
      if o.files.isEmpty then (lit "stdin", [Sources.inputPath])
      else (Sources.nameOf o.files, o.files)
    let (reports, text, rest) :=
      Sources.loadAll { files := shell.files, input := shell.input } paths limit
    let shell := reports.foldl (fun shell report => shell.log level .debug report) shell
    (text.map (name, ·), { shell with input := rest.input })

/-- How many bodies the statistics after a run show. -/
def hottestShown : Int := 10

/-- Shows how a run ended; the result is the exit code. -/
def conclude (r : RunRecord) (p : Program) (stats : Option Stats) (shell : Shell) : Nat × Shell :=
  match r.result.error, r.result.value with
  | some (.undefined names), _ =>
    (refused, shell.sayLine (RunError.undefined names).message)
  | some e, _ => (failed, shell.log r.level .error e.message)
  | none, value =>
    let shown := (value.map Value.text).getD []
    let shell := shell.log r.level .debug
      (p.source ++ lit " evaluated to " ++ shown ++ lit " in " ++ shell.labels.duration)
    match stats with
    | none => (success, shell)
    | some stats =>
      match stats.writeReport (some p.graph) hottestShown with
      | (text, none) => (success, shell.say text)
      | (text, some fault) => (failed, (shell.say text).sayLine fault.message)

/-- Loads, compiles and runs the program of a call. `bits` are the input bits if they do not come
from the standard input. -/
def runProgram (o : Options) (bits : Option Bytes) (limit : Int) (desk : Desk) (shell : Shell) :
    Nat × Desk × Shell :=
  match loadProgram o limit desk.level shell with
  | (.error e, shell) => (failed, desk, shell.sayLine e.message)
  | (.ok (source, text), shell) =>
    match Program.compile source text desk.lastId with
    | .error e => (refused, desk, shell.sayLine (lit "syntax error: " ++ e.message))
    | .ok (p, lastId) =>
      let desk := { desk with lastId }
      if o.dump then
        match p.dump with
        | .ok graph => (success, desk, shell.print graph)
        | .error fault => (failed, desk, shell.sayLine fault.message)
      else
        let input := Bits.Reader.ofBytes (bits.getD shell.input)
        let (record, desk) := { desk with session := { desk.session with input } }.run p
        let (code, shell) := conclude record p desk.session.stats (shell.record record)
        (code, desk, shell)

/-- Serves the prompt from what is left of the standard input. -/
def servePrompt (desk : Desk) (shell : Shell) : Desk × Shell :=
  let files := match shell.files.openEntry desk.settings.historyFile with
    | .ok _ => shell.files
    | .error _ =>
      match shell.files.create desk.settings.historyFile with
      | .ok files => files
      | .error _ => shell.files
  let stats := some (desk.session.stats.getD {})
  let desk := { desk with session := { desk.session with stats } }
  let historyFile := desk.settings.historyFile
  let (notices, desk) := Prompt.run format desk shell.input
  (desk, notices.foldl Shell.notice { shell with files, historyFile, input := [] })

/-- Closes what a call has opened: the trace, then the writer of the output bits. -/
def finish (desk : Desk) (shell : Shell) : Shell :=
  let shell := shell.closeTrace
  let (dropped, error) := desk.session.output.close.1
  let shell :=
    if 0 < dropped then
      shell.log desk.level .warning
        (lit "dropping " ++ .ofNat dropped ++ lit " pending output bits of an incomplete byte")
    else shell
  match error with
  | none => shell
  | some e => shell.log desk.level .error (lit "bit output: " ++ e)

/-- The first file that cannot be watched, by its error. -/
def unwatchable (files : Files) : List Bytes → Option FileError
  | [] => none
  | path :: rest =>
    match files.openEntry (pathIn [] path) with
    | .error e => some e
    | .ok _ => unwatchable files rest

/-- Does what the options ask for once everything is open: the prompt alone, or the program and then
maybe the prompt. -/
def work (o : Options) (bits : Option Bytes) (desk : Desk) (shell : Shell) : Nat × Desk × Shell :=
  let limit := match desk.settings.maxSourceBytes with
    | .ok n => n
    | .error _ => 0
  let blocked := if o.watch then unwatchable shell.files o.files else none
  if o.interactive && !hasSources o then
    let (desk, shell) := servePrompt desk shell
    (success, desk, shell)
  else if o.watch && o.files.isEmpty then
    (failed, desk, shell.sayLine (lit "-watch needs source files"))
  else match blocked with
    | some e => (failed, desk, shell.sayLine e.text)
    | none =>
      let (code, desk, shell) := runProgram o bits limit desk shell
      if o.interactive && !o.watch then
        let (desk, shell) := servePrompt desk shell
        (code, desk, shell)
      else (code, desk, shell)

/-- Opens the streams and files of a call. -/
def openAll (o : Options) (s : Settings) (level : LogLevel) (shell : Shell) :
    Except (Bytes × Shell) (Option Bytes × Shell) :=
  match inputBytes o shell.files with
  | .error e => .error (e, shell)
  | .ok bits =>
    match if o.profile = [] then .ok shell else createFile shell o.profile with
    | .error e => .error (e, shell)
    | .ok shell =>
      match openChannel s shell with
      | .error e => .error (e, shell)
      | .ok shell =>
        match openTrace s level shell with
        | .error e => .error (e, shell)
        | .ok shell => .ok (bits, shell)

/-- A call with valid settings. -/
def callWith (o : Options) (s : Settings) (strategy : Strategy) (level : LogLevel)
    (shell : Shell) : Nat × Shell :=
  match openAll o s level (stackReport s level shell) with
  | .error (message, shell) => (failed, shell.sayLine message)
  | .ok (bits, shell) =>
    let output : Bits.Writer := { sink := outputSink shell }
    let input := Bits.Reader.ofBytes (bits.getD [])
    let stats := if s.stats then some {} else none
    let desk : Desk :=
      { session := { output, input, stats, plan := { strategy } }, settings := s, level }
    let (code, desk, shell) := work o bits desk { shell with writer := output }
    (code, finish desk shell)

/-- A call of the program: the exit code and what it leaves behind. -/
def call (arguments : List Bytes) (shell : Shell) : Nat × Shell :=
  match Options.parse arguments with
  | .error .help => (success, shell.say Options.usage)
  | .error e => (failed, shell.say (e.message ++ Options.usage))
  | .ok o =>
    if o.builtins then (success, shell.print Builtin.helpText)
    else match settings o shell.files with
      | .error e => (failed, shell.sayLine e.message)
      | .ok s =>
        match s.chosenStrategy, LogLevel.ofName? s.logLevel with
        | .ok strategy, some level => callWith o s strategy level shell
        | _, _ => (failed, shell)

/-- The file that a call keeps typed lines in, if it serves the prompt. -/
def historyFile (arguments : List Bytes) (files : Files) : Option Bytes :=
  match Options.parse arguments with
  | .error _ => none
  | .ok o =>
    match settings o files with
    | .error _ => none
    | .ok s => if o.interactive then some s.historyFile else none

end Call

/-- Whether a call may read its standard input. -/
def readsInput (arguments : List Bytes) : Bool :=
  match Options.parse arguments with
  | .error _ => false
  | .ok o =>
    !o.builtins && (o.interactive || !hasSources o || o.files.contains Sources.inputPath ||
      (o.input.isEmpty && !o.dump))

end CommandLine

end BitCalculus
