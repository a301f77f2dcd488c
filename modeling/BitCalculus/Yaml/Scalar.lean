import BitCalculus.Number.Reading
import BitCalculus.Yaml.Cursor

/-!
# Scalars of a YAML text

How the text of one scalar is read: without quotes, between single quotes, or between double quotes
with escapes. A scalar may reach over several lines; a single line end between words counts as one
blank, and every further line end is kept.
-/

namespace BitCalculus.Yaml

/-- What separates two words: the blanks before the first line end and the line ends. After an
escaped line end blanks do not count. -/
structure Gap where
  blanks : List Char := []
  breaks : List Char := []
  afterEscape : Bool := false

namespace Gap

/-- What a gap contributes to the value of the scalar around it. -/
def text (g : Gap) : List Char :=
  if g.afterEscape then g.breaks
  else match g.breaks with
    | [] => g.blanks
    | ['\n'] => [' ']
    | '\n' :: more => more
    | breaks => breaks

/-- Whether a blank at this point of a gap is kept. -/
def keepsBlank (g : Gap) : Bool :=
  g.breaks.isEmpty && !g.afterEscape

/-- Reads a gap from a place on. A tab left of column `indent` on a later line is an error, which
is reported by its line. -/
def read (g : Gap) (indent : Int) (mark : Mark) : List Char → Except Nat (Gap × Cursor)
  | [] => .ok (g, ⟨[], mark⟩)
  | '\r' :: '\n' :: rest =>
    read { g with breaks := g.breaks ++ ['\n'] } indent (mark.down 2) rest
  | c :: rest =>
    if isBlank c then
      if g.keepsBlank then read { g with blanks := g.blanks ++ [c] } indent (mark.right 1) rest
      else if c == '\t' && (mark.column : Int) < indent then .error mark.line
      else read g indent (mark.right 1) rest
    else if isBreak c then
      read { g with breaks := g.breaks ++ [normalBreak c] } indent (mark.down 1) rest
    else .ok (g, ⟨c :: rest, mark⟩)

end Gap

/-- The characters that end a word inside brackets. -/
def flowIndicators : List Char := ",?[]\x7b\x7d".toList

/-- Whether a word without quotes ends before `c`, which `next` follows. -/
def endsWord (inFlow : Bool) (c : Char) (next : Option Char) : Bool :=
  isBlank c || isBreak c || (c == ':' && isGap next) || (inFlow && flowIndicators.contains c)

/-- The word without quotes at the head of a text. -/
def word (inFlow : Bool) : List Char → List Char
  | [] => []
  | c :: rest => if endsWord inFlow c rest.head? then [] else c :: word inFlow rest

/-- A scalar without quotes: its value, whether line ends were passed over behind it, and the place
behind it. -/
structure PlainScalar where
  text : List Char
  broken : Bool
  after : Cursor

/-- Reads words and gaps. `text` is the value so far and `gap` what stands between it and the
cursor; a block scalar ends on a line that starts left of column `indent`. -/
def plainFrom (inFlow : Bool) (indent : Int) (start : Nat) :
    Nat → List Char → Gap → Cursor → Except Error PlainScalar
  | 0, text, gap, c => .ok ⟨text, !gap.breaks.isEmpty, c⟩
  | fuel + 1, text, gap, c =>
    let next := word inFlow c.rest
    if c.atDocument || c.rest.head? == some '#' || next.isEmpty then
      .ok ⟨text, !gap.breaks.isEmpty, c⟩
    else
      let text := text ++ gap.text ++ next
      let c := c.skip next.length
      match Gap.read {} indent c.mark c.rest with
      | .error line => .error (.inToken start line .tabInIndentation)
      | .ok (gap, c) =>
        if !inFlow && (c.mark.column : Int) < indent then .ok ⟨text, !gap.breaks.isEmpty, c⟩
        else plainFrom inFlow indent start fuel text gap c

/-- Reads a scalar without quotes inside a block that is indented by `indent`. -/
def readPlain (inFlow : Bool) (indent : Int) (c : Cursor) : Except Error PlainScalar :=
  plainFrom inFlow (indent + 1) c.mark.line c.rest.length [] {} c

/-- The character that a one-letter escape stands for. -/
def escapedLetter : Char → Option Nat
  | '0' => some 0
  | 'a' => some 7
  | 'b' => some 8
  | 't' => some 9
  | '\t' => some 9
  | 'n' => some 10
  | 'v' => some 11
  | 'f' => some 12
  | 'r' => some 13
  | 'e' => some 27
  | ' ' => some 32
  | '"' => some 34
  | '\\' => some 92
  | 'N' => some 0x85
  | '_' => some 0xA0
  | 'L' => some 0x2028
  | 'P' => some 0x2029
  | c => if c.toNat = 39 then some 39 else none

/-- How many hexadecimal digits follow the letter of an escape. -/
def escapedDigits : Char → Option Nat
  | 'x' => some 2
  | 'u' => some 4
  | 'U' => some 8
  | _ => none

/-- The character that an escape denotes and how many characters it takes after the backslash. -/
def escape (letter : Char) (rest : List Char) : Except Problem (Char × Nat) :=
  match escapedLetter letter, escapedDigits letter with
  | some point, _ => .ok (Char.ofNat point, 1)
  | none, none => .error .unknownEscape
  | none, some width =>
    let digits := (rest.take width).map fun c => if c.toNat < 128 then c.toNat.toUInt8 else 0
    match digits.length == width, Reading.digits 16 digits with
    | true, some point =>
      if 0xD800 ≤ point ∧ point ≤ 0xDFFF ∨ 0x10FFFF < point then .error .badEscapedPoint
      else .ok (Char.ofNat point, width + 1)
    | _, _ => .error .notHexadecimal

/-- What a stretch of a quoted scalar ends with. -/
inductive StretchEnd where
  | gap
  | quote
  | escapedBreak

/-- The kinds of quotes. -/
inductive Quote where
  | single
  | double
deriving DecidableEq

/-- The character of a quote. -/
def Quote.char : Quote → Char
  | .single => Char.ofNat 39
  | .double => '"'

/-- Reads a stretch of a quoted scalar without gaps. The result is the value of the stretch, what
ends it, and the place of that end. A problem is reported with the line it lies on. -/
def stretch (quote : Quote) (text : List Char) (mark : Mark) :
    List Char → Except (Nat × Problem) (List Char × StretchEnd × Cursor)
  | [] => .ok (text, .gap, ⟨[], mark⟩)
  | '\\' :: rest =>
    if quote = .single then stretch quote (text ++ ['\\']) (mark.right 1) rest
    else match rest with
      | [] => .error (mark.line, .unknownEscape)
      | '\r' :: '\n' :: more => .ok (text, .escapedBreak, ⟨more, mark.down 3⟩)
      | letter :: more =>
        if isBreak letter then .ok (text, .escapedBreak, ⟨more, mark.down 2⟩)
        else match escape letter more with
          | .error problem => .error (mark.line, problem)
          | .ok (value, width) =>
            stretch quote (text ++ [value]) (mark.right (width + 1)) (more.drop (width - 1))
  | x :: rest =>
    if isBlank x || isBreak x then .ok (text, .gap, ⟨x :: rest, mark⟩)
    else if x == quote.char then
      if quote = .single ∧ rest.head? = some x then
        stretch quote (text ++ [x]) (mark.right 2) (rest.drop 1)
      else .ok (text, .quote, ⟨x :: rest, mark⟩)
    else stretch quote (text ++ [x]) (mark.right 1) rest
termination_by rest => rest.length
decreasing_by all_goals simp only [List.length_drop, List.length_cons]; omega

/-- Reads stretches and gaps up to the closing quote. -/
def quotedFrom (quote : Quote) (start : Nat) :
    Nat → List Char → Cursor → Except Error (List Char × Cursor)
  | 0, _, c => .error (.inToken start c.mark.line .unexpectedEnd)
  | fuel + 1, text, c =>
    if c.atDocument then .error (.inToken start c.mark.line .unexpectedDocument)
    else if c.rest.isEmpty then .error (.inToken start c.mark.line .unexpectedEnd)
    else match stretch quote text c.mark c.rest with
      | .error (line, problem) => .error (.inToken start line problem)
      | .ok (text, ending, c) =>
        if c.rest.head? == some quote.char then .ok (text, c.skip 1)
        else
          let afterEscape := match ending with
            | .escapedBreak => true
            | _ => false
          match Gap.read { afterEscape } 0 c.mark c.rest with
          | .error line => .error (.inToken start line .unexpectedEnd)
          | .ok (gap, c) => quotedFrom quote start fuel (text ++ gap.text) c

/-- Reads a quoted scalar, from the opening quote on. -/
def readQuoted (quote : Quote) (c : Cursor) : Except Error (List Char × Cursor) :=
  quotedFrom quote c.mark.line (c.rest.length + 1) [] (c.skip 1)

end BitCalculus.Yaml
