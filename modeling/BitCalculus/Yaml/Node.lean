import BitCalculus.Yaml.Token

/-!
# Nodes of a YAML text

The first document of a text as a tree of scalars, sequences and mappings. A value that is left out
is an empty scalar.
-/

namespace BitCalculus.Yaml

/-- A node and the line it starts on, counted from one. -/
inductive Node where
  | scalar (line : Nat) (value : Bytes) (quoted : Bool)
  | sequence (line : Nat) (items : List Node)
  | mapping (line : Nat) (entries : List (Node × Node))

/-- Computations that hand out tokens one by one and stop at the first error. -/
abbrev NodeReader := StateT Stream (Except Error)

namespace NodeReader

/-- The next token, which is not handed out yet. -/
def peek : NodeReader Token := fun s => s.peek

/-- Hands out the next token. -/
def take : NodeReader Unit := modify Stream.take

/-- Stops with a problem. -/
def stop {α : Type} (start reached : Nat) (problem : Problem) : NodeReader α :=
  throw (.betweenTokens start reached problem)

/-- A value that is left out. -/
def emptyNode (line : Nat) : Node := .scalar (line + 1) [] false

/-- Reads a node unless the next token is one of the given kinds, which end an empty one. -/
def nodeUnless (ends : List TokenKind) (line : Nat) (node : NodeReader Node) : NodeReader Node := do
  let token ← peek
  if ends.contains token.kind then return emptyNode line else node

mutual

/-- Reads a node. Blocks are only allowed outside brackets (`inBlock`); as the key or value of a
mapping a sequence need not be indented (`inMapping`). -/
def node (inBlock inMapping : Bool) : Nat → NodeReader Node
  | 0 => stop 0 0 .noContent
  | fuel + 1 => do
    let token ← peek
    match token.kind, inBlock, inMapping with
    | .blockEntry, _, true => return .sequence (token.line + 1) (← looseEntries fuel)
    | .scalar text quoted, _, _ =>
      take
      return .scalar (token.line + 1) (encode text) quoted
    | .flowSequence, _, _ =>
      take
      return .sequence (token.line + 1) (← flowItems token.line true fuel)
    | .flowMapping, _, _ =>
      take
      return .mapping (token.line + 1) (← flowPairs token.line true fuel)
    | .blockSequence, true, _ =>
      take
      return .sequence (token.line + 1) (← entries token.line fuel)
    | .blockMapping, true, _ =>
      take
      return .mapping (token.line + 1) (← pairs token.line fuel)
    | _, _, _ => stop token.line token.line .noContent
termination_by structural fuel => fuel

/-- Reads the entries of a sequence that is indented. -/
def entries (start : Nat) : Nat → NodeReader (List Node)
  | 0 => stop start 0 .noDash
  | fuel + 1 => do
    let token ← peek
    match token.kind with
    | .blockEntry =>
      take
      let item ← nodeUnless [.blockEntry, .blockEnd] token.line (node true false fuel)
      return item :: (← entries start fuel)
    | .blockEnd =>
      take
      return []
    | _ => stop start token.line .noDash
termination_by structural fuel => fuel

/-- Reads the entries of a sequence that is not indented; it ends where no entry follows. -/
def looseEntries : Nat → NodeReader (List Node)
  | 0 => return []
  | fuel + 1 => do
    let token ← peek
    match token.kind with
    | .blockEntry =>
      take
      let item ←
        nodeUnless [.blockEntry, .key, .value, .blockEnd] token.line (node true false fuel)
      return item :: (← looseEntries fuel)
    | _ => return []
termination_by structural fuel => fuel

/-- Reads the keys and values of a mapping in block form. -/
def pairs (start : Nat) : Nat → NodeReader (List (Node × Node))
  | 0 => stop start 0 .noKey
  | fuel + 1 => do
    let token ← peek
    match token.kind with
    | .key =>
      take
      let key ← nodeUnless [.key, .value, .blockEnd] token.line (node true true fuel)
      let value ← pairValue fuel
      return (key, value) :: (← pairs start fuel)
    | .blockEnd =>
      take
      return []
    | _ => stop start token.line .noKey
termination_by structural fuel => fuel

/-- Reads the value of a mapping in block form. -/
def pairValue : Nat → NodeReader Node
  | 0 => stop 0 0 .noContent
  | fuel + 1 => do
    let token ← peek
    match token.kind with
    | .value =>
      take
      nodeUnless [.key, .value, .blockEnd] token.line (node true true fuel)
    | _ => return emptyNode token.line
termination_by structural fuel => fuel

/-- Reads the items of a sequence in brackets. -/
def flowItems (start : Nat) (isFirst : Bool) : Nat → NodeReader (List Node)
  | 0 => stop start 0 .noBracket
  | fuel + 1 => do
    let token ← peek
    match token.kind, isFirst with
    | .flowSequenceEnd, _ =>
      take
      return []
    | .flowEntry, false =>
      take
      flowItem start fuel
    | _, true => flowItem start fuel
    | _, false => stop start token.line .noBracket
termination_by structural fuel => fuel

/-- Reads an item of a sequence in brackets, and the items behind it. -/
def flowItem (start : Nat) : Nat → NodeReader (List Node)
  | 0 => stop start 0 .noBracket
  | fuel + 1 => do
    let token ← peek
    match token.kind with
    | .flowSequenceEnd =>
      take
      return []
    | .key =>
      take
      let key ← flowItemKey fuel
      let value ← flowValue .flowSequenceEnd fuel
      return .mapping (token.line + 1) [(key, value)] :: (← flowItems start false fuel)
    | _ =>
      let item ← node false false fuel
      return item :: (← flowItems start false fuel)
termination_by structural fuel => fuel

/-- Reads the key of a pair that stands in a sequence; the token that ends an empty one is passed
over. -/
def flowItemKey : Nat → NodeReader Node
  | 0 => stop 0 0 .noContent
  | fuel + 1 => do
    let token ← peek
    if [.value, .flowEntry, .flowSequenceEnd].contains token.kind then
      take
      return emptyNode token.line
    else node false false fuel
termination_by structural fuel => fuel

/-- Reads the keys and values of a mapping in braces. -/
def flowPairs (start : Nat) (isFirst : Bool) : Nat → NodeReader (List (Node × Node))
  | 0 => stop start 0 .noBrace
  | fuel + 1 => do
    let token ← peek
    match token.kind, isFirst with
    | .flowMappingEnd, _ =>
      take
      return []
    | .flowEntry, false =>
      take
      flowPair start fuel
    | _, true => flowPair start fuel
    | _, false => stop start token.line .noBrace
termination_by structural fuel => fuel

/-- Reads a key and its value in a mapping in braces, and the pairs behind them. -/
def flowPair (start : Nat) : Nat → NodeReader (List (Node × Node))
  | 0 => stop start 0 .noBrace
  | fuel + 1 => do
    let token ← peek
    match token.kind with
    | .flowMappingEnd =>
      take
      return []
    | .key =>
      take
      let line := (← peek).line
      let key ← nodeUnless [.value, .flowEntry, .flowMappingEnd] line (node false false fuel)
      let value ← flowValue .flowMappingEnd fuel
      return (key, value) :: (← flowPairs start false fuel)
    | _ =>
      let key ← node false false fuel
      let line := (← peek).line
      return (key, emptyNode line) :: (← flowPairs start false fuel)
termination_by structural fuel => fuel

/-- Reads the value of a pair inside brackets or braces that `ending` closes. -/
def flowValue (ending : TokenKind) : Nat → NodeReader Node
  | 0 => stop 0 0 .noContent
  | fuel + 1 => do
    let token ← peek
    match token.kind with
    | .value =>
      take
      let line := (← peek).line
      nodeUnless [.flowEntry, ending] line (node false false fuel)
    | _ => return emptyNode token.line
termination_by structural fuel => fuel

end

/-- Reads the first document, if there is one, up to the token behind it. -/
def document (fuel : Nat) : NodeReader (Option Node) := do
  let token ← peek
  match token.kind with
  | .textEnd => return none
  | .documentStart =>
    take
    let line := (← peek).line
    let root ← nodeUnless [.documentStart, .documentEnd, .textEnd] line (node true false fuel)
    let _ ← peek
    return some root
  | _ =>
    let root ← node true false fuel
    let _ ← peek
    return some root

end NodeReader

/-- How deep the reading of a text can be nested. -/
def nesting (text : List Char) : Nat := 16 * (text.length + 4)

/-- The first document of a text; a text of blanks and comments has none. -/
def read (text : Bytes) : Except Error (Option Node) :=
  match decode text with
  | .error problem => .error ⟨0, problem⟩
  | .ok chars => ((NodeReader.document (nesting chars)).run { cursor := ⟨chars, {}⟩ }).map Prod.fst

end BitCalculus.Yaml
