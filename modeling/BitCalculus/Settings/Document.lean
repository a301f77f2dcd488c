import BitCalculus.Settings.Basic
import BitCalculus.Text.Quoted
import BitCalculus.Yaml.Node
import BitCalculus.Yaml.Written

/-!
# Settings as YAML

A settings file is a YAML mapping from the names of settings to their values. A value that is left
out or null leaves its setting as it is. Every entry that does not fit is reported, and the others
take effect nevertheless. A key that occurs twice makes the whole mapping void.
-/

namespace BitCalculus

namespace Settings

/-- How one setting is looked up and changed. -/
inductive Field where
  | text (get : Settings → Bytes) (set : Bytes → Settings → Settings)
  | number (get : Settings → Int) (set : Int → Settings → Settings)
  | switch (get : Settings → Bool) (set : Bool → Settings → Settings)

/-- The settings with their names, in the order in which they are written. -/
def fields : List (String × Field) :=
  [("strategy", .text strategy fun v s => { s with strategy := v }),
    ("workers", .number workers fun v s => { s with workers := v }),
    ("min_fork_size", .number minForkSize fun v s => { s with minForkSize := v }),
    ("log_level", .text logLevel fun v s => { s with logLevel := v }),
    ("debug_output", .text debugOutput fun v s => { s with debugOutput := v }),
    ("trace", .switch trace fun v s => { s with trace := v }),
    ("trace_dir", .text traceFolder fun v s => { s with traceFolder := v }),
    ("stats", .switch stats fun v s => { s with stats := v }),
    ("max_source_size", .text maxSourceSize fun v s => { s with maxSourceSize := v }),
    ("max_stack", .text maxStack fun v s => { s with maxStack := v }),
    ("history_file", .text historyFile fun v s => { s with historyFile := v })]

/-- The setting with the given name. -/
def field? (name : Bytes) : Option Field :=
  (fields.find? fun (key, _) => lit key == name).map Prod.snd

/-- A setting as the value of an entry, with the line end behind it. -/
def Field.written (s : Settings) : Field → Bytes
  | text get _ => Yaml.written (get s)
  | number get _ => Bytes.ofInt (get s) ++ [10]
  | switch get _ => lit (if get s then "true\n" else "false\n")

/-- The settings as a YAML mapping. -/
def dump (s : Settings) : Bytes :=
  fields.flatMap fun (name, field) => lit name ++ lit ": " ++ field.written s

/-- What does not fit in a settings file. -/
inductive Misfit where
  | kind (line : Nat) (tag : Bytes) (value : Option Bytes) (wanted : String)
  | unknown (line : Nat) (name : Bytes)
  | repeated (line : Nat) (name : Bytes) (firstLine : Nat)
deriving DecidableEq

/-- The name of the whole mapping in reports. -/
def typeName : String := "lambda.SettingsT"

/-- A value as a report shows it: a long one is cut off. -/
def excerpt (value : Bytes) : Bytes :=
  lit " `" ++ (if 10 < value.length then value.take 7 ++ lit "..." else value) ++ lit "`"

/-- The report of what does not fit. -/
def Misfit.message : Misfit → Bytes
  | kind line tag value wanted =>
    lit "line " ++ .ofNat line ++ lit ": cannot unmarshal " ++ tag ++
      (value.elim [] excerpt) ++ lit " into " ++ lit wanted
  | unknown line name =>
    lit "line " ++ .ofNat line ++ lit ": field " ++ name ++ lit " not found in type " ++
      lit typeName
  | repeated line name firstLine =>
    lit "line " ++ .ofNat line ++ lit ": mapping key " ++ name.quoted ++
      lit " already defined at line " ++ .ofNat firstLine

/-- The report of all that does not fit. -/
def misfitsMessage (misfits : List Misfit) : Bytes :=
  lit "yaml: unmarshal errors:" ++ misfits.flatMap fun m => lit "\n  " ++ m.message

/-- The line, the kind and the text by which two keys are compared. -/
def keyOf : Yaml.Node → Nat × Nat × Bytes
  | .scalar line value _ => (line, 0, value)
  | .sequence line _ => (line, 1, [])
  | .mapping line _ => (line, 2, [])

/-- The keys of a mapping that occur again, each with every later occurrence. -/
def repeatedKeys : List (Yaml.Node × Yaml.Node) → List Misfit
  | [] => []
  | (key, _) :: rest =>
    let (line, kind, value) := keyOf key
    rest.filterMap (fun (other, _) =>
      let (otherLine, otherKind, otherValue) := keyOf other
      if kind = otherKind ∧ value = otherValue then some (.repeated otherLine value line) else none)
      ++ repeatedKeys rest

/-- What is wrong with a node that should be of the wanted kind and is not. -/
def misfit (wanted : String) : Yaml.Node → List Misfit
  | .scalar line value quoted =>
    let tag := if quoted then Yaml.Value.tag .text else (Yaml.Value.ofPlain value).tag
    [.kind line tag (some value) wanted]
  | .sequence line _ => [.kind line (lit "!!seq") none wanted]
  | .mapping line entries =>
    match repeatedKeys entries with
    | [] => [.kind line (lit "!!map") none wanted]
    | repeats => repeats

/-- The truth values that may be written as words. -/
def switchWord (value : Bytes) : Option Bool :=
  if ["y", "Y", "yes", "on"].any fun w => lit w == value then some true
  else if ["n", "N", "no", "off"].any fun w => lit w == value then some false
  else none

/-- The whole number that a scalar stands for; a fraction is dropped. -/
def wholeNumber : Yaml.Value → Option Int
  | .int n => if n < wordHalf then some n else none
  | .float x =>
    match x with
    | .notANumber => none
    | x => if x.atLeast (wordHalf + 1) then none else some x.toWord
  | _ => none

/-- The truth value that a scalar stands for. -/
def truthValue (value : Bytes) : Yaml.Value → Option Bool
  | .bool b => some b
  | .text => switchWord value
  | _ => none

/-- Gives a setting the value of a node. -/
def Field.assign (field : Field) (node : Yaml.Node) (s : Settings) : List Misfit × Settings :=
  let refuse : List Misfit × Settings :=
    (misfit (match field with
      | text .. => "string"
      | number .. => "int"
      | switch .. => "bool") node, s)
  match node with
  | .scalar _ value quoted =>
    let meaning := if quoted then .text else Yaml.Value.ofPlain value
    match field, meaning with
    | _, .null => ([], s)
    | text _ set, _ => ([], set value s)
    | number _ set, meaning =>
      match wholeNumber meaning with
      | some n => ([], set n s)
      | none => refuse
    | switch _ set, meaning =>
      match truthValue value meaning with
      | some b => ([], set b s)
      | none => refuse
  | _ => refuse

/-- The name that a key stands for; a null key stands for none. -/
def nameOf : Yaml.Node → Except (List Misfit) (Option (Nat × Bytes))
  | .scalar line value quoted =>
    if !quoted && Yaml.Value.ofPlain value == .null then .ok none else .ok (some (line, value))
  | node => .error (misfit "string" node)

/-- Gives effect to one entry of the mapping. -/
def assignEntry (state : List Misfit × Settings) (entry : Yaml.Node × Yaml.Node) :
    List Misfit × Settings :=
  let (misfits, s) := state
  match nameOf entry.1 with
  | .error more => (misfits ++ more, s)
  | .ok none => (misfits, s)
  | .ok (some (line, name)) =>
    match field? name with
    | none => (misfits ++ [.unknown line name], s)
    | some field =>
      let (more, s) := field.assign entry.2 s
      (misfits ++ more, s)

/-- Gives effect to a document. -/
def assignDocument (node : Yaml.Node) (s : Settings) : List Misfit × Settings :=
  match node with
  | .mapping _ entries =>
    match repeatedKeys entries with
    | [] => entries.foldl assignEntry ([], s)
    | repeats => (repeats, s)
  | .scalar _ value quoted =>
    if !quoted && Yaml.Value.ofPlain value == .null then ([], s) else (misfit typeName node, s)
  | .sequence .. => (misfit typeName node, s)

/-- Decodes a YAML text on top of settings. -/
def ofYaml : Decoder := fun text s =>
  match Yaml.read text with
  | .error e => (some e.message, s)
  | .ok none => (some (lit "EOF"), s)
  | .ok (some node) =>
    match assignDocument node s with
    | ([], s) => (none, s)
    | (misfits, s) => (some (misfitsMessage misfits), s)

end Settings

end BitCalculus
