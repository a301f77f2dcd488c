import BitCalculus.Yaml.Scalar

/-!
# Tokens of a YAML text

A text is split into tokens from left to right. Whether a scalar or a bracket starts a key is only
known once the colon behind it is seen, so a token is handed out only when nothing can be put in
front of it any more. Aliases, tags, directives and block scalars are not part of this reader: a
character that would start one starts no token.
-/

namespace BitCalculus.Yaml

/-- The kinds of tokens. -/
inductive TokenKind where
  | textEnd
  | documentStart
  | documentEnd
  | blockSequence
  | blockMapping
  | blockEnd
  | flowSequence
  | flowSequenceEnd
  | flowMapping
  | flowMappingEnd
  | blockEntry
  | flowEntry
  | key
  | value
  | scalar (text : List Char) (quoted : Bool)
deriving DecidableEq

/-- A token and the line it starts on, counted from zero. -/
structure Token where
  kind : TokenKind
  line : Nat

/-- A token that turns into a key if a colon follows: its number, its place, and whether nothing
but a key may stand there. -/
structure Candidate where
  number : Nat
  mark : Mark
  required : Bool

/-- How many characters may stand between the start of a key and its colon. -/
def keyReach : Nat := 1024

/-- Whether a candidate can no longer become a key at the given place. -/
def Candidate.isStale (k : Candidate) (here : Mark) : Bool :=
  k.mark.line < here.line || k.mark.index + keyReach < here.index

/-- A text that is being split into tokens: the place reached, the tokens found and not yet handed
out, how many were handed out, the indentation of the blocks around the place, the candidate of each
bracket around it, and whether a key may start. -/
structure Stream where
  cursor : Cursor
  queue : List Token := []
  taken : Nat := 0
  indent : Int := -1
  outerIndents : List Int := []
  candidate : Option Candidate := none
  outerCandidates : List (Option Candidate) := []
  keyAllowed : Bool := true

namespace Stream

/-- The place reached. -/
def mark (s : Stream) : Mark := s.cursor.mark

/-- Whether the place is inside brackets. -/
def inFlow (s : Stream) : Bool := !s.outerCandidates.isEmpty

/-- Adds a token found at the place reached. -/
def push (s : Stream) (kind : TokenKind) : Stream :=
  { s with queue := s.queue ++ [⟨kind, s.mark.line⟩] }

/-- Puts a token in front of the token with the given number. -/
def insert (s : Stream) (number : Nat) (token : Token) : Stream :=
  let index := number - s.taken
  { s with queue := s.queue.take index ++ [token] ++ s.queue.drop index }

/-- A problem at the place reached. -/
def refuse {α : Type} (s : Stream) (problem : Problem) : Except Error α :=
  .error (.inToken s.mark.line s.mark.line problem)

/-- Gives up the candidate of the innermost bracket; one that had to become a key is an error. -/
def dropCandidate (s : Stream) : Except Error Stream :=
  match s.candidate with
  | some k =>
    if k.required then .error (.inToken k.mark.line s.mark.line .noColon)
    else .ok { s with candidate := none }
  | none => .ok s

/-- Notes that the next token may turn into a key. -/
def saveCandidate (s : Stream) : Except Error Stream :=
  if s.keyAllowed then
    let required := !s.inFlow && s.indent == s.mark.column
    match s.dropCandidate with
    | .error e => .error e
    | .ok t =>
      .ok { t with candidate := some ⟨s.taken + s.queue.length, s.mark, required⟩ }
  else .ok s

/-- The candidate of the innermost bracket if it can still become a key. -/
def liveCandidate (s : Stream) : Except Error (Option Candidate) :=
  match s.candidate with
  | none => .ok none
  | some k =>
    if k.isStale s.mark then
      if k.required then .error (.inToken k.mark.line s.mark.line .noColon) else .ok none
    else .ok (some k)

/-- Opens a block at a column to the right of the blocks around it. Its token stands in front of
token `number`. -/
def openBlock (s : Stream) (column number : Nat) (kind : TokenKind) (line : Nat) : Stream :=
  if s.inFlow || (column : Int) ≤ s.indent then s
  else Stream.insert
    { s with indent := column, outerIndents := s.indent :: s.outerIndents } number ⟨kind, line⟩

/-- Closes the blocks that are indented further than `column`. -/
def closeBlocks (column : Int) (s : Stream) : List Int → Stream
  | [] => { s with outerIndents := [] }
  | outer :: rest =>
    if column < s.indent then closeBlocks column { s.push .blockEnd with indent := outer } rest
    else { s with outerIndents := outer :: rest }

/-- Closes the blocks that a token at `column` ends; inside brackets columns do not matter. -/
def unindent (s : Stream) (column : Int) : Stream :=
  if s.inFlow then s else closeBlocks column s s.outerIndents

/-- Moves over the characters of a token and adds it. -/
def consume (s : Stream) (kind : TokenKind) (width : Nat) : Stream :=
  let s := s.push kind
  { s with cursor := s.cursor.skip width }

/-- The end of the text. -/
def finish (s : Stream) : Except Error Stream := do
  let mark := s.mark
  let mark := if mark.column = 0 then mark else mark.down 0
  let s := { s with cursor := ⟨s.cursor.rest, mark⟩ }
  let s ← (s.unindent (-1)).dropCandidate
  return { s with keyAllowed := false }.push .textEnd

/-- The start or the end of a document. -/
def document (s : Stream) (kind : TokenKind) : Except Error Stream := do
  let s ← (s.unindent (-1)).dropCandidate
  return { s with keyAllowed := false }.consume kind 3

/-- An opening bracket. -/
def openFlow (s : Stream) (kind : TokenKind) : Except Error Stream := do
  let s ← s.saveCandidate
  return { s with
    candidate := none
    outerCandidates := s.candidate :: s.outerCandidates
    keyAllowed := true }.consume kind 1

/-- A closing bracket. -/
def closeFlow (s : Stream) (kind : TokenKind) : Except Error Stream := do
  let s ← s.dropCandidate
  let s := match s.outerCandidates with
    | [] => s
    | outer :: rest => { s with candidate := outer, outerCandidates := rest }
  return { s with keyAllowed := false }.consume kind 1

/-- A comma inside brackets. -/
def separate (s : Stream) : Except Error Stream := do
  let s ← s.dropCandidate
  return { s with keyAllowed := true }.consume .flowEntry 1

/-- A dash in front of an entry. -/
def entry (s : Stream) : Except Error Stream := do
  if !s.inFlow && !s.keyAllowed then s.refuse .entryNotAllowed
  else
    let s := s.openBlock s.mark.column (s.taken + s.queue.length) .blockSequence s.mark.line
    let s ← s.dropCandidate
    return { s with keyAllowed := true }.consume .blockEntry 1

/-- A question mark in front of a key. -/
def explicitKey (s : Stream) : Except Error Stream := do
  if !s.inFlow && !s.keyAllowed then s.refuse .keyNotAllowed
  else
    let s := s.openBlock s.mark.column (s.taken + s.queue.length) .blockMapping s.mark.line
    let s ← s.dropCandidate
    return { s with keyAllowed := !s.inFlow }.consume .key 1

/-- A colon. If there is a candidate, it is a key, and a mapping may start with it. -/
def colon (s : Stream) : Except Error Stream := do
  match ← s.liveCandidate with
  | some k =>
    let s := s.insert k.number ⟨.key, k.mark.line⟩
    let s := s.openBlock k.mark.column k.number .blockMapping k.mark.line
    return { s with candidate := none, keyAllowed := false }.consume .value 1
  | none =>
    if !s.inFlow && !s.keyAllowed then s.refuse .valueNotAllowed
    else
      let s := s.openBlock s.mark.column (s.taken + s.queue.length) .blockMapping s.mark.line
      return { s with candidate := none, keyAllowed := !s.inFlow }.consume .value 1

/-- A quoted scalar. -/
def quoted (s : Stream) (quote : Quote) : Except Error Stream := do
  let s ← s.saveCandidate
  let (text, cursor) ← readQuoted quote s.cursor
  return { s.push (.scalar text true) with cursor, keyAllowed := false }

/-- A scalar without quotes. -/
def plain (s : Stream) : Except Error Stream := do
  let s ← s.saveCandidate
  let scalar ← readPlain s.inFlow s.indent s.cursor
  return { s.push (.scalar scalar.text false) with
    cursor := scalar.after, keyAllowed := scalar.broken }

/-- The characters that start no scalar without quotes. -/
def indicators : List Char := "#&*!|>%@`".toList

/-- The token that starts with the character `c` in front of `next`. -/
def startingWith (s : Stream) (c : Char) (next : Option Char) : Except Error Stream :=
  if s.cursor.atMarker '-' then s.document .documentStart
  else if s.cursor.atMarker '.' then s.document .documentEnd
  else if c == '[' then s.openFlow .flowSequence
  else if c == '\x7b' then s.openFlow .flowMapping
  else if c == ']' then s.closeFlow .flowSequenceEnd
  else if c == '\x7d' then s.closeFlow .flowMappingEnd
  else if c == ',' then s.separate
  else if c == '-' && isGap next then s.entry
  else if c == '?' && (s.inFlow || isGap next) then s.explicitKey
  else if c == ':' && (s.inFlow || isGap next) then s.colon
  else if c == Quote.single.char then s.quoted .single
  else if c == Quote.double.char then s.quoted .double
  else if isBlank c || indicators.contains c then s.refuse .badStart
  else s.plain

/-- Finds the next token. -/
def fetch (s : Stream) : Except Error Stream :=
  let (keyAllowed, cursor) := toToken s.inFlow s.keyAllowed false false s.mark s.cursor.rest
  let s := { s with keyAllowed, cursor }.unindent cursor.mark.column
  match cursor.rest with
  | [] => s.finish
  | c :: rest => s.startingWith c rest.head?

/-- How many tokens are found before one is handed out. -/
def lookahead : Nat := 3

/-- Whether the first token of the queue may still turn into a key; one that had to and cannot any
more is an error. -/
def isOpen (s : Stream) : Except Error Bool :=
  match (s.candidate :: s.outerCandidates).find? fun k => k.any (·.number == s.taken) with
  | some (some k) =>
    if k.isStale s.mark then
      if k.required then .error (.inToken k.mark.line s.mark.line .noColon) else .ok false
    else .ok true
  | _ => .ok false

/-- Finds tokens until the first one can be handed out. -/
def fill : Nat → Stream → Except Error Stream
  | 0, s => .ok s
  | fuel + 1, s => do
    if s.queue.length < lookahead then fill fuel (← s.fetch)
    else if ← s.isOpen then fill fuel (← s.fetch)
    else return s

/-- The next token, which stays in the queue. -/
def peek (s : Stream) : Except Error (Token × Stream) := do
  let s ← s.fill (s.cursor.rest.length + lookahead + 1)
  return (s.queue.headD ⟨.textEnd, s.mark.line⟩, s)

/-- Hands out the next token. -/
def take (s : Stream) : Stream :=
  { s with queue := s.queue.drop 1, taken := s.taken + 1 }

end Stream

end BitCalculus.Yaml
