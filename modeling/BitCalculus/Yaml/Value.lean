import BitCalculus.Yaml.Timestamp

/-!
# What scalars without quotes mean

A scalar without quotes is a truth value, a number, a date or nothing at all if it has the form of
one, and a text otherwise. Integers may be written in base two, eight, ten and sixteen and with
underscores.
-/

namespace BitCalculus.Yaml

/-- The meaning of a scalar. -/
inductive Value where
  | null
  | bool (value : Bool)
  | int (value : Int)
  | float (value : Binary64)
  | timestamp
  | text
deriving DecidableEq

namespace Value

/-- The tag that names a kind of value. -/
def tag : Value → Bytes
  | null => lit "!!null"
  | bool _ => lit "!!bool"
  | int _ => lit "!!int"
  | float _ => lit "!!float"
  | timestamp => lit "!!timestamp"
  | text => lit "!!str"

/-- The words with a fixed meaning. -/
def words : List (String × Value) :=
  [("", null), ("~", null), ("null", null), ("Null", null), ("NULL", null),
    ("true", bool true), ("True", bool true), ("TRUE", bool true),
    ("false", bool false), ("False", bool false), ("FALSE", bool false),
    (".nan", float .notANumber), (".NaN", float .notANumber), (".NAN", float .notANumber),
    (".inf", float (.infinite false)), (".Inf", float (.infinite false)),
    (".INF", float (.infinite false)), ("+.inf", float (.infinite false)),
    ("+.Inf", float (.infinite false)), ("+.INF", float (.infinite false)),
    ("-.inf", float (.infinite true)), ("-.Inf", float (.infinite true)),
    ("-.INF", float (.infinite true))]

/-- The meaning of a word with a fixed meaning. -/
def ofWord? (text : Bytes) : Option Value :=
  (words.find? fun (word, _) => lit word == text).map Prod.snd

/-- What follows the digits at the head of a text, if there are any. -/
def digitsThen (text : Bytes) : Option Bytes :=
  match text with
  | b :: rest => if Reading.isDigit b then some (rest.dropWhile Reading.isDigit) else none
  | [] => none

/-- Whether a text is empty or an exponent of ten. -/
def isExponent : Bytes → Bool
  | [] => true
  | b :: rest =>
    (b == 69 || b == 101) && digitsThen (Reading.splitSign rest).2 == some []

/-- Whether a text is a decimal number: digits with or without a point, and maybe an exponent. -/
def isDecimal (text : Bytes) : Bool :=
  let body := (Reading.splitSign text).2
  match body with
  | 46 :: rest => (digitsThen rest).any isExponent
  | _ =>
    match digitsThen body with
    | some (46 :: rest) => isExponent (rest.dropWhile Reading.isDigit)
    | some rest => isExponent rest
    | none => false

/-- A signed number with digits in the given base, up to the largest unsigned 64-bit word. -/
def inBase (base : Nat) (text : Bytes) : Option Value :=
  let (negative, body) := Reading.splitSign text
  match Reading.digits base body with
  | none => none
  | some n =>
    if negative then (if n ≤ wordHalf then some (int (-n)) else none)
    else if n < wordHalf ∨ (n < wordCount ∧ text = body) then some (int n)
    else none

/-- A number in base two or eight with a sign behind the start that chooses the base. -/
def inChosenBase (text : Bytes) : Option Value :=
  match text with
  | 48 :: 98 :: rest => inBase 2 rest
  | 45 :: 48 :: 98 :: rest => inBase 2 (45 :: rest)
  | 48 :: 111 :: rest => inBase 8 rest
  | 45 :: 48 :: 111 :: rest => inBase 8 (45 :: rest)
  | _ => none

/-- The integer that a text denotes, up to the largest unsigned 64-bit word. -/
def integer? (text : Bytes) : Option Value :=
  match Reading.integer text, Reading.natural text with
  | .ok n, _ => some (int n)
  | .error _, some n => if n < wordCount then some (int n) else none
  | .error _, none => none

/-- The floating-point number that a text denotes. -/
def float? (text : Bytes) : Option Value :=
  match Reading.float text with
  | .ok x => some (float x)
  | .error _ => none

/-- The number that a text denotes; underscores do not count. -/
def number? (text : Bytes) : Option Value :=
  let text := text.filter (· != 95)
  integer? text <|> (if isDecimal text then float? text else none) <|> inChosenBase text

/-- The meaning of a scalar without quotes, by its first character. -/
def ofPlain (source : Bytes) : Value :=
  match ofWord? source, source with
  | some value, _ => value
  | none, 46 :: _ => (float? source).getD text
  | none, b :: _ =>
    if Reading.isDigit b || b == 43 || b == 45 then
      if isTimestamp source then timestamp else (number? source).getD text
    else text
  | none, [] => null

end Value

end BitCalculus.Yaml
