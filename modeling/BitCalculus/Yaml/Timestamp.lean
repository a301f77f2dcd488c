import BitCalculus.Number.Reading

/-!
# Dates and times

Which texts without quotes are dates: a year of four digits, a month and a day, alone or followed by
a time of day. Behind the letter `T` the time has a zone, behind a blank it has none.
-/

namespace BitCalculus.Yaml

namespace Timestamp

/-- A number of one or two digits at the head of a text, and the rest. -/
def shortNumber (text : Bytes) : Option (Nat × Bytes) :=
  match text with
  | a :: b :: rest =>
    if Reading.isDigit a then
      if Reading.isDigit b then some ((a.toNat - 48) * 10 + (b.toNat - 48), rest)
      else some (a.toNat - 48, b :: rest)
    else none
  | [a] => if Reading.isDigit a then some (a.toNat - 48, []) else none
  | [] => none

/-- The rest of a text that starts with the given byte. -/
def after (mark : UInt8) : Bytes → Option Bytes
  | [] => none
  | b :: rest => if b = mark then some rest else none

/-- Whether a year has a 29th of February. -/
def isLeap (year : Nat) : Bool :=
  year % 4 == 0 && (year % 100 != 0 || year % 400 == 0)

/-- How many days a month has. -/
def daysIn (year month : Nat) : Nat :=
  if month = 2 then (if isLeap year then 29 else 28)
  else if month = 4 ∨ month = 6 ∨ month = 9 ∨ month = 11 then 30
  else 31

/-- What follows the date at the head of a text. -/
def date (text : Bytes) : Option Bytes := do
  let year ← Reading.digits 10 (text.take 4)
  if !(text.take 4).all Reading.isDigit then none
  let rest ← after 45 (text.drop 4)
  let (month, rest) ← shortNumber rest
  let rest ← after 45 rest
  let (day, rest) ← shortNumber rest
  if 1 ≤ month ∧ month ≤ 12 ∧ 1 ≤ day ∧ day ≤ daysIn year month then some rest else none

/-- What follows the fraction of a second that a text may start with. -/
def fraction : Bytes → Bytes
  | mark :: digit :: rest =>
    if (mark = 46 ∨ mark = 44) ∧ Reading.isDigit digit then rest.dropWhile Reading.isDigit
    else mark :: digit :: rest
  | text => text

/-- What follows the time of day at the head of a text. -/
def time (text : Bytes) : Option Bytes := do
  let (hour, rest) ← shortNumber text
  let rest ← after 58 rest
  let (minute, rest) ← shortNumber rest
  let rest ← after 58 rest
  let (second, rest) ← shortNumber rest
  if hour < 24 ∧ minute < 60 ∧ second < 60 then some (fraction rest) else none

/-- Whether a text is a time zone: `Z`, or a signed distance in hours and minutes. -/
def isZone : Bytes → Bool
  | [90] => true
  | [sign, a, b, 58, c, d] =>
    (sign == 43 || sign == 45) && [a, b, c, d].all Reading.isDigit &&
      (Reading.digits 10 [a, b]).any (· ≤ 24) && (Reading.digits 10 [c, d]).any (· ≤ 60)
  | _ => false

end Timestamp

/-- Whether a text is a date, with or without a time. -/
def isTimestamp (text : Bytes) : Bool :=
  match Timestamp.date text with
  | none => false
  | some [] => true
  | some (mark :: rest) =>
    if mark = 84 ∨ mark = 116 then (Timestamp.time rest).any Timestamp.isZone
    else mark == 32 && (Timestamp.time (rest.dropWhile (· == 32))).any List.isEmpty

end BitCalculus.Yaml
