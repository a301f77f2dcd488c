import BitCalculus.Number.Word

/-!
# Rounded numbers

Sizes are computed in binary floating point with 53 significant bits. A number is held as an exact
mantissa and exponent, and every operation rounds the exact result to the nearest number of that
kind, a tie going to the even mantissa.
-/

namespace BitCalculus

/-- A floating-point number: `mantissa · 2 ^ exponent` with a sign, an infinity, or no number. -/
inductive Binary64 where
  | finite (negative : Bool) (mantissa : Nat) (exponent : Int)
  | infinite (negative : Bool)
  | notANumber
deriving DecidableEq

namespace Binary64

/-- The quotient of two numbers rounded to the nearest integer, a tie going to the even one. -/
def roundQuotient (numerator denominator : Nat) : Nat :=
  let q := numerator / denominator
  let twice := 2 * (numerator % denominator)
  if twice < denominator then q
  else if denominator < twice then q + 1
  else if q % 2 = 0 then q else q + 1

/-- The exponent that leaves 53 bits to the mantissa of a positive quotient, and never less than
the smallest one there is. -/
def exponentFor (numerator denominator : Nat) : Int :=
  let guess : Int := (numerator.log2 : Int) - denominator.log2 - 52
  let tooLarge :=
    if 0 ≤ guess then numerator < denominator * Nat.pow 2 (guess.toNat + 52)
    else numerator * Nat.pow 2 (-guess).toNat < denominator * Nat.pow 2 52
  max (-1074) (if tooLarge then guess - 1 else guess)

/-- A quotient rounded to 53 significant bits; one that is too large is infinite. -/
def ofRatio (negative : Bool) (numerator denominator : Nat) : Binary64 :=
  if numerator = 0 then finite negative 0 0
  else
    let e := exponentFor numerator denominator
    let mantissa :=
      if 0 ≤ e then roundQuotient numerator (denominator * Nat.pow 2 e.toNat)
      else roundQuotient (numerator * Nat.pow 2 (-e).toNat) denominator
    if 971 < e ∨ (e = 971 ∧ mantissa = Nat.pow 2 53) then infinite negative
    else finite negative mantissa e

/-- The number nearest to a natural number. -/
def ofNat (n : Nat) : Binary64 :=
  ofRatio false n 1

/-- The exact absolute value of a finite number as a quotient. -/
def ratio (mantissa : Nat) (exponent : Int) : Nat × Nat :=
  if 0 ≤ exponent then (mantissa * Nat.pow 2 exponent.toNat, 1)
  else (mantissa, Nat.pow 2 (-exponent).toNat)

/-- The product with a natural number. -/
def scale (x : Binary64) (factor : Nat) : Binary64 :=
  match x with
  | finite negative mantissa exponent =>
    let (n, d) := ratio mantissa exponent
    ofRatio negative (n * factor) d
  | other => other

/-- The quotient by a positive number. -/
def divide (x : Binary64) (divisor : Nat) : Binary64 :=
  match x with
  | finite negative mantissa exponent =>
    let (n, d) := ratio mantissa exponent
    ofRatio negative n (d * divisor)
  | other => other

/-- Whether a number is below zero; neither zero is. -/
def isNegative : Binary64 → Bool
  | finite negative mantissa _ => negative && mantissa != 0
  | infinite negative => negative
  | notANumber => false

/-- Whether a number is at least the given natural number. -/
def atLeast (x : Binary64) (bound : Nat) : Bool :=
  match x with
  | finite negative mantissa exponent =>
    let (n, d) := ratio mantissa exponent
    if negative then mantissa == 0 && bound == 0 else bound * d ≤ n
  | infinite negative => !negative
  | notANumber => false

/-- The integer part of a number as a signed 64-bit word; what does not fit, and what is no number,
becomes the least word. -/
def toWord : Binary64 → Int
  | finite negative mantissa exponent =>
    let (n, d) := ratio mantissa exponent
    let whole : Int := (n / d : Nat)
    let value := if negative then -whole else whole
    if fitsWord value then value else -wordHalf
  | _ => -wordHalf

end Binary64

end BitCalculus
