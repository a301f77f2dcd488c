import BitCalculus.Number.Reading
import BitCalculus.Text.Quoted

/-!
# Options of the command line

An option starts with one or two dashes; its value follows behind an equals sign or as the next
argument. Switches need no value. Options end at the first argument that is none, or at `--`.
-/

namespace BitCalculus

/-- What the command line asks for. Of an option with a value, the last one counts, but program
texts add up. A switch or a number that was not given is absent. -/
structure Options where
  commands : List Bytes := []
  config : Bytes := []
  parallel : Option Bool := none
  workers : Option Int := none
  input : Bytes := []
  dump : Bool := false
  stats : Option Bool := none
  trace : Option Bool := none
  watch : Bool := false
  interactive : Bool := false
  builtins : Bool := false
  profile : Bytes := []
  files : List Bytes := []

/-- Why arguments are refused. Asking for help is one of the reasons. -/
inductive UsageError where
  | help
  | badForm (argument : Bytes)
  | undefined (name : Bytes)
  | noValue (name : Bytes)
  | badSwitch (value name : Bytes)
  | badValue (value name : Bytes) (reason : NumberError)
deriving DecidableEq

/-- The wording of a number error on the command line. -/
def NumberError.brief : NumberError → Bytes
  | badForm => lit "parse error"
  | outOfRange => lit "value out of range"

/-- The line in front of the usage. -/
def UsageError.message : UsageError → Bytes
  | help => []
  | badForm argument => lit "bad flag syntax: " ++ argument ++ [10]
  | undefined name => lit "flag provided but not defined: -" ++ name ++ [10]
  | noValue name => lit "flag needs an argument: -" ++ name ++ [10]
  | badSwitch value name =>
    lit "invalid boolean value " ++ value.quoted ++ lit " for -" ++ name ++ lit ": parse error\n"
  | badValue value name reason =>
    lit "invalid value " ++ value.quoted ++ lit " for flag -" ++ name ++ lit ": " ++ reason.brief ++
      [10]

namespace Options

/-- What an option does with its value. -/
inductive Action where
  | switch (set : Bool → Options → Options)
  | text (set : Bytes → Options → Options)
  | number (set : Int → Options → Options)

/-- An option: its name, the name of its value in the usage, what it is for and what it does. -/
structure Flag where
  name : String
  valueName : String
  purpose : String
  action : Action

/-- All options, by name. -/
def flags : List Flag :=
  [⟨"builtins", "", "List the builtins and exit", .switch fun v o => { o with builtins := v }⟩,
    ⟨"c", "value", "Program text (repeatable, concatenated in order)",
      .text fun v o => { o with commands := o.commands ++ [v] }⟩,
    ⟨"config", "string", "YAML settings file", .text fun v o => { o with config := v }⟩,
    ⟨"dump", "", "Print the de Bruijn graph and exit without running",
      .switch fun v o => { o with dump := v }⟩,
    ⟨"i", "", "Interactive prompt", .switch fun v o => { o with interactive := v }⟩,
    ⟨"input", "string", "Read input bits from this file instead of stdin",
      .text fun v o => { o with input := v }⟩,
    ⟨"parallel", "", "Evaluate provably pure operands in parallel",
      .switch fun v o => { o with parallel := some v }⟩,
    ⟨"profile", "string", "Write a CPU profile to this file",
      .text fun v o => { o with profile := v }⟩,
    ⟨"stats", "", "Print cache statistics to stderr after the run",
      .switch fun v o => { o with stats := some v }⟩,
    ⟨"trace", "", "Write a Chrome trace file", .switch fun v o => { o with trace := some v }⟩,
    ⟨"watch", "", "Run again whenever a source file changes",
      .switch fun v o => { o with watch := v }⟩,
    ⟨"workers", "int", "Parallel worker count (0 = one per CPU)",
      .number fun v o => { o with workers := some v }⟩]

/-- The lines of the usage for one option. The purpose of a switch of one letter stands on the same
line. -/
def Flag.usage (flag : Flag) : Bytes :=
  lit "  -" ++ lit flag.name ++
    (if flag.valueName = "" then [] else lit " " ++ lit flag.valueName) ++
    (if flag.name.length = 1 ∧ flag.valueName = "" then lit "\t" else lit "\n    \t") ++
    lit flag.purpose ++ [10]

/-- The usage of the program. -/
def usage : Bytes :=
  lit "Usage of bitlambda:\n" ++ flags.flatMap Flag.usage

/-- The truth values as switches take them. -/
def switchValue? (text : Bytes) : Option Bool :=
  if ["1", "t", "T", "true", "TRUE", "True"].any fun w => lit w == text then some true
  else if ["0", "f", "F", "false", "FALSE", "False"].any fun w => lit w == text then some false
  else none

/-- Gives an option its value. -/
def Flag.set (flag : Flag) (value : Bytes) (o : Options) : Except UsageError Options :=
  match flag.action with
  | .text set => .ok (set value o)
  | .switch set =>
    match switchValue? value with
    | some v => .ok (set v o)
    | none => .error (.badSwitch value (lit flag.name))
  | .number set =>
    match Reading.integer value with
    | .ok v => .ok (set v o)
    | .error reason => .error (.badValue value (lit flag.name) reason)

/-- What an argument is: no option, the end of the options, or an option with its name and the value
behind an equals sign. -/
inductive Form where
  | operand
  | endOfOptions
  | bad
  | option (name : Bytes) (value : Option Bytes)

/-- The form of an argument. -/
def form (argument : Bytes) : Form :=
  let named (text : Bytes) : Form :=
    match text with
    | [] => .bad
    | b :: rest =>
      if b = 45 ∨ b = 61 then .bad
      else .option (b :: rest.takeWhile (· != 61))
        (if rest.contains 61 then some ((rest.dropWhile (· != 61)).drop 1) else none)
  match argument with
  | [45, 45] => .endOfOptions
  | 45 :: 45 :: rest => named rest
  | 45 :: b :: rest => named (b :: rest)
  | _ => .operand

/-- The options that arguments amount to. -/
def parseFrom (o : Options) : List Bytes → Except UsageError Options
  | [] => .ok o
  | argument :: rest =>
    match form argument with
    | .operand => .ok { o with files := argument :: rest }
    | .endOfOptions => .ok { o with files := rest }
    | .bad => .error (.badForm argument)
    | .option name value =>
      match flags.find? fun flag => lit flag.name == name with
      | none => .error (if name = lit "help" ∨ name = lit "h" then .help else .undefined name)
      | some flag =>
        match value, flag.action with
        | some value, _ =>
          match flag.set value o with
          | .ok o => parseFrom o rest
          | .error e => .error e
        | none, .switch set => parseFrom (set true o) rest
        | none, _ =>
          match rest with
          | [] => .error (.noValue name)
          | next :: more =>
            match flag.set next o with
            | .ok o => parseFrom o more
            | .error e => .error e

/-- The options that the arguments of the program amount to. -/
def parse (arguments : List Bytes) : Except UsageError Options :=
  parseFrom {} arguments

end Options

end BitCalculus
