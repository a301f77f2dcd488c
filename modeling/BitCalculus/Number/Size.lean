import BitCalculus.Number.Reading
import BitCalculus.Text.LowerCase
import BitCalculus.Text.Quoted

/-!
# Sizes in bytes

Settings name sizes and reports show them; how that is done is a parameter of both, `SizeUnits`. By
default a size is written as a number with a unit, `64MiB`, `1.5k`, `512`, where units are powers of
1024 and may be written in any case; shown to people, a size has four significant digits and a unit.
-/

namespace BitCalculus

/-- How sizes in bytes are read, with the reason why a text is no size, and how they are shown in
powers of 1000 and in powers of 1024. -/
class SizeUnits where
  parse : Bytes → Except Bytes Int
  human : Nat → Bytes
  humanBinary : Nat → Bytes

/-- Why a text is no size. -/
inductive SizeError where
  | badSize (text : Bytes)
  | badUnit (unit : Bytes)
  | badNumber (text : Bytes) (reason : NumberError)
deriving DecidableEq

/-- The report of a text that is no size. -/
def SizeError.message : SizeError → Bytes
  | badSize text => lit "invalid size: '" ++ text ++ lit "'"
  | badUnit unit => lit "invalid suffix: '" ++ unit ++ lit "'"
  | badNumber text reason =>
    lit "strconv.ParseFloat: parsing " ++ text.quoted ++ lit ": " ++ reason.text

namespace Size

/-- Whether a byte can be the last one of the number in a size. -/
def endsNumber (b : UInt8) : Bool :=
  Reading.isDigit b || b == 46 || b == 32

/-- The number and the unit of a size. The number reaches to the last digit, point or blank; one
blank between the two belongs to neither. -/
def split (text : Bytes) : Option (Bytes × Bytes) :=
  let unit := (text.reverse.takeWhile fun b => !endsNumber b).reverse
  let number := text.take (text.length - unit.length)
  match number.getLast? with
  | none => none
  | some 32 => some (number.dropLast, unit)
  | some _ => some (number, unit)

/-- The power of 1024 that a unit letter stands for. -/
def unitPower : UInt8 → Option Nat
  | 107 => some 1
  | 109 => some 2
  | 103 => some 3
  | 116 => some 4
  | 112 => some 5
  | _ => none

/-- The factor of a unit: nothing or `b` for single bytes, a letter alone, or a letter followed by
`b` or `ib`. -/
def unitFactor (unit : Bytes) : Except SizeError Nat :=
  if unit = [] then .ok 1
  else if 3 < unit.length then .error (.badUnit unit)
  else
    let unit := unit.toLower
    match unit with
    | [] => .ok 1
    | letter :: rest =>
      if unit = lit "b" then .ok 1
      else match unitPower letter with
        | none => .error (.badUnit unit)
        | some power =>
          if rest = [] ∨ rest = lit "b" ∨ rest = lit "ib" ∨ 2 < rest.length then
            .ok (Nat.pow 1024 power)
          else .error (.badUnit unit)

/-- The number of bytes that a text denotes, as a signed 64-bit word. -/
def parse (text : Bytes) : Except SizeError Int :=
  match split text with
  | none => .error (.badSize text)
  | some (number, unit) =>
    match Reading.float number with
    | .error reason => .error (.badNumber number reason)
    | .ok value =>
      if value.isNegative then .error (.badSize text)
      else match unitFactor unit with
        | .error e => .error e
        | .ok factor => .ok (value.scale factor).toWord

/-- The units of sizes that are shown in powers of 1000. -/
def decimalUnits : List String :=
  ["B", "kB", "MB", "GB", "TB", "PB", "EB", "ZB", "YB"]

/-- The units of sizes that are shown in powers of 1024. -/
def binaryUnits : List String :=
  ["B", "KiB", "MiB", "GiB", "TiB", "PiB", "EiB", "ZiB", "YiB"]

/-- A number divided by `base` until it is below it or only one unit is left, and that unit. -/
def reduce (base : Nat) (value : Binary64) : List String → Binary64 × String
  | [] => (value, "")
  | [unit] => (value, unit)
  | unit :: next :: units =>
    if value.atLeast base then reduce base (value.divide base) (next :: units) else (value, unit)

/-- The number of digits before the point of a positive quotient, counted up from `n`. -/
def wholeDigits (numerator denominator : Nat) : Nat → Nat → Nat
  | 0, n => n
  | fuel + 1, n =>
    if numerator < denominator * Nat.pow 10 n then n
    else wholeDigits numerator denominator fuel (n + 1)

/-- A quotient of at least one with four significant digits, without trailing zeros after the
point. -/
def fourDigits (numerator denominator : Nat) : Bytes :=
  let whole := wholeDigits numerator denominator 40 0
  let unit := Nat.pow 10 (4 - whole)
  let step := Nat.pow 10 (whole - 4)
  let scaled := Binary64.roundQuotient (numerator * unit) (denominator * step) * step
  let part := Bytes.ofNat (unit + scaled % unit)
  let part := ((part.drop 1).reverse.dropWhile (· == 48)).reverse
  .ofNat (scaled / unit) ++ (if part.isEmpty then [] else 46 :: part)

/-- A size with its unit. -/
def render (base : Nat) (units : List String) (bytes : Nat) : Bytes :=
  let (value, unit) := reduce base (.ofNat bytes) units
  match value with
  | .finite _ mantissa exponent =>
    let (n, d) := Binary64.ratio mantissa exponent
    fourDigits n d ++ lit unit
  | _ => lit unit

/-- A size for people, in powers of 1000. -/
def human (bytes : Nat) : Bytes :=
  render 1000 decimalUnits bytes

/-- A size for people, in powers of 1024. -/
def humanBinary (bytes : Nat) : Bytes :=
  render 1024 binaryUnits bytes

end Size

instance : SizeUnits where
  parse text := (Size.parse text).mapError SizeError.message
  human := Size.human
  humanBinary := Size.humanBinary

end BitCalculus
