import BitCalculus.Number.Binary64
import BitCalculus.Text.Bytes

/-!
# Reading numbers

Integers in base two, eight, ten and sixteen, chosen by how the text starts, and floating-point
numbers in decimal or hexadecimal notation. An underscore may stand between digits.
-/

namespace BitCalculus

/-- Why a text is no number of the wanted kind. -/
inductive NumberError where
  | badForm
  | outOfRange
deriving DecidableEq

/-- The reason as it is reported. -/
def NumberError.text : NumberError → Bytes
  | badForm => lit "invalid syntax"
  | outOfRange => lit "value out of range"

namespace Reading

/-- The letter of a byte in lower case. -/
def lowerByte (b : UInt8) : UInt8 :=
  if 65 ≤ b ∧ b ≤ 90 then b + 32 else b

/-- Whether a byte is a decimal digit. -/
def isDigit (b : UInt8) : Bool :=
  48 ≤ b && b ≤ 57

/-- The value of a byte as a digit of a base up to thirty-six. -/
def digitValue (b : UInt8) : Option Nat :=
  let b := lowerByte b
  if isDigit b then some (b.toNat - 48)
  else if 97 ≤ b ∧ b ≤ 122 then some (b.toNat - 87)
  else none

/-- The number that a non-empty text of digits denotes in the given base. -/
def digits (base : Nat) (text : Bytes) : Option Nat :=
  if text.isEmpty then none
  else text.foldl (fun n b =>
    match n, digitValue b with
    | some n, some d => if d < base then some (n * base + d) else none
    | _, _ => none) (some 0)

/-- The text without a sign in front, and whether that sign was a minus. -/
def splitSign : Bytes → Bool × Bytes
  | 43 :: rest => (false, rest)
  | 45 :: rest => (true, rest)
  | text => (false, text)

/-- The base that the start of an unsigned integer chooses, and the digits after that start. -/
def splitBase : Bytes → Nat × Bytes
  | 48 :: b :: rest =>
    let letter := lowerByte b
    if letter = 120 ∧ !rest.isEmpty then (16, rest)
    else if letter = 98 ∧ !rest.isEmpty then (2, rest)
    else if letter = 111 ∧ !rest.isEmpty then (8, rest)
    else (8, b :: rest)
  | text => (10, text)

/-- Whether every underscore stands after a digit and before one; the start of a hexadecimal, octal
or binary number counts as a digit. `afterDigit` and `afterScore` tell what the last byte was. -/
def scoresBetween (hex afterDigit afterScore : Bool) : Bytes → Bool
  | [] => !afterScore
  | b :: rest =>
    if isDigit b || (hex && 97 ≤ lowerByte b && lowerByte b ≤ 102) then
      scoresBetween hex true false rest
    else if b = 95 then afterDigit && scoresBetween hex false true rest
    else !afterScore && scoresBetween hex false false rest

/-- Whether the underscores of a number stand where they may. -/
def scoresAllowed (text : Bytes) : Bool :=
  match (splitSign text).2 with
  | 48 :: b :: rest =>
    let letter := lowerByte b
    if letter = 98 ∨ letter = 111 ∨ letter = 120 then
      scoresBetween (letter == 120) true false rest
    else scoresBetween false false false (48 :: b :: rest)
  | text => scoresBetween false false false text

/-- An unsigned integer in the base that its start chooses. -/
def natural (text : Bytes) : Option Nat :=
  let (base, body) := splitBase text
  if text.contains 95 ∧ !scoresAllowed text then none
  else digits base (body.filter (· != 95))

/-- A signed 64-bit integer in the base that its start chooses. -/
def integer (text : Bytes) : Except NumberError Int :=
  let (negative, body) := splitSign text
  match natural body with
  | none => .error .badForm
  | some n =>
    let value : Int := if negative then -n else n
    if fitsWord value then .ok value else .error .outOfRange

/-- Whether `text` is `word` up to the case of its letters. -/
def sameWord (word text : Bytes) : Bool :=
  text.map lowerByte == word

/-- The infinities and the value that is no number, by name. -/
def namedFloat (text : Bytes) : Option Binary64 :=
  let (negative, body) := splitSign text
  if sameWord (lit "inf") body || sameWord (lit "infinity") body then some (.infinite negative)
  else if sameWord (lit "nan") text then some .notANumber
  else none

/-- The digits before and after the point of a number, as the digits together and how many of them
stand after the point, and what follows. -/
def mantissa (isPart : UInt8 → Bool) (text : Bytes) : Bytes × Nat × Bytes :=
  let whole := text.takeWhile isPart
  let rest := text.dropWhile isPart
  match rest with
  | 46 :: rest =>
    let part := rest.takeWhile isPart
    ((whole ++ part).filter (· != 95), (part.filter (· != 95)).length, rest.dropWhile isPart)
  | _ => (whole.filter (· != 95), 0, rest)

/-- The exponent after its letter, up to a ceiling beyond which its exact value does not matter. -/
def exponent (text : Bytes) : Option Int :=
  let (negative, body) := splitSign text
  match body with
  | [] => none
  | b :: _ =>
    if isDigit b ∧ body.all fun b => isDigit b || b == 95 then
      (digits 10 (body.filter (· != 95))).map fun n =>
        let n : Int := min n 100000
        if negative then -n else n
    else none

/-- `digits · base ^ power` rounded, where every digit after the point counts in `power`. -/
def assemble (negative : Bool) (n base : Nat) (power : Int) : Except NumberError Binary64 :=
  let value : Binary64 :=
    if n = 0 then .finite negative 0 0
    else if 0 ≤ power then .ofRatio negative (n * Nat.pow base (min power.toNat 5000)) 1
    else .ofRatio negative n (Nat.pow base (-power).toNat)
  match value with
  | .infinite _ => .error .outOfRange
  | value => .ok value

/-- A decimal number: digits, a point, and an exponent of ten. -/
def decimal (negative : Bool) (text : Bytes) : Except NumberError Binary64 :=
  let (ds, places, rest) := mantissa (fun b => isDigit b || b == 95) text
  match digits 10 ds with
  | none => .error .badForm
  | some n =>
    match rest with
    | [] => assemble negative n 10 (-places)
    | b :: rest =>
      if lowerByte b = 101 then
        match exponent rest with
        | some e => assemble negative n 10 (max (e - places) (-20000))
        | none => .error .badForm
      else .error .badForm

/-- A hexadecimal number: digits, a point, and an exponent of two that must be there. -/
def hexadecimal (negative : Bool) (text : Bytes) : Except NumberError Binary64 :=
  let isPart (b : UInt8) : Bool :=
    isDigit b || b == 95 || (97 ≤ lowerByte b && lowerByte b ≤ 102)
  let (ds, places, rest) := mantissa isPart text
  match digits 16 ds, rest with
  | some n, b :: rest =>
    if lowerByte b = 112 then
      match exponent rest with
      | some e => assemble negative n 2 (max (e - 4 * places) (-20000))
      | none => .error .badForm
    else .error .badForm
  | _, _ => .error .badForm

/-- A floating-point number. -/
def float (text : Bytes) : Except NumberError Binary64 :=
  match namedFloat text with
  | some value => .ok value
  | none =>
    let (negative, body) := splitSign text
    if text.contains 95 ∧ !scoresAllowed text then .error .badForm
    else match body with
      | 48 :: b :: c :: rest =>
        if lowerByte b = 120 then hexadecimal negative (c :: rest) else decimal negative body
      | _ => decimal negative body

end Reading

end BitCalculus
