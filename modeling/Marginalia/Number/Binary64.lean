/-!
# Binary floating-point numbers

The numbers that sixty-four bits hold: a whole number of less than fifty-three bits times a power of
two, the two infinities and the value that is no number.  A decimal literal stands for the nearest of
them; halfway between two, for the one whose whole number is even.
-/

namespace Marginalia.Number

/-- A binary floating-point number.  A finite one is `mantissa * 2 ^ exponent`, with its sign kept
    apart so that zero has one. -/
inductive Binary64 where
  | finite (negative : Bool) (mantissa : Nat) (exponent : Int)
  | infinite (negative : Bool)
  | notANumber
deriving Repr, DecidableEq, Inhabited

/-- Ten or two to an integer power, as a fraction. -/
def power (base : Nat) (exponent : Int) : Nat × Nat :=
  if exponent < 0 then (1, base.pow exponent.natAbs) else (base.pow exponent.natAbs, 1)

/-- The nearest whole number to a fraction; of two equally near, the even one. -/
def roundDiv (numerator denominator : Nat) : Nat :=
  let quotient := numerator / denominator
  let twice := 2 * (numerator % denominator)
  if twice < denominator then quotient
  else if denominator < twice then quotient + 1
  else quotient + quotient % 2

/-- The largest `k` with `2 ^ k` at most the fraction, for a positive fraction. -/
def binaryOrder (numerator denominator : Nat) : Int :=
  let guess : Int := (numerator.log2 : Int) - denominator.log2
  let (up, down) := power 2 guess
  if up * denominator ≤ numerator * down then guess else guess - 1

/-- How many decimal digits a number has; zero has one. -/
def digitCount (value : Nat) : Nat :=
  (Nat.toDigits 10 value).length

/-- The largest `k` with `10 ^ k` at most the fraction, for a positive fraction. -/
def decimalOrder (numerator denominator : Nat) : Int :=
  let guess : Int := (digitCount numerator : Int) - digitCount denominator
  let (up, down) := power 10 guess
  if up * denominator ≤ numerator * down then guess else guess - 1

namespace Binary64

/-- The exponent of the smallest positive number. -/
def leastExponent : Int := -1074

/-- The largest exponent of a finite number. -/
def greatestExponent : Int := 971

/-- The number nearest to a positive fraction: with fifty-three bits where the exponent allows it,
    with the least exponent below, and infinite above the largest finite number. -/
def ofFraction (negative : Bool) (numerator denominator : Nat) : Binary64 :=
  let exponent := max (binaryOrder numerator denominator - 52) leastExponent
  let (up, down) := power 2 exponent
  let mantissa := roundDiv (numerator * down) (denominator * up)
  let (mantissa, exponent) :=
    if mantissa = Nat.pow 2 53 then (Nat.pow 2 52, exponent + 1) else (mantissa, exponent)
  if greatestExponent < exponent then .infinite negative else .finite negative mantissa exponent

/-- The number nearest to `digits * 10 ^ exponent`.  Decimals far outside the range are settled by
    their order alone. -/
def ofDecimal (negative : Bool) (digits : Nat) (exponent : Int) : Binary64 :=
  if digits = 0 then .finite negative 0 leastExponent
  else
    let order := exponent + digitCount digits
    if 400 < order then .infinite negative
    else if order < -400 then .finite negative 0 leastExponent
    else
      let (up, down) := power 10 exponent
      ofFraction negative (digits * up) down

/-- The integer that a finite number equals, if it is whole. -/
def toInt? : Binary64 → Option Int
  | .finite negative mantissa exponent =>
    let (up, down) := power 2 exponent
    if mantissa * up % down = 0 then
      let whole : Int := (mantissa * up / down : Nat)
      some (if negative then -whole else whole)
    else none
  | _ => none

/-- Whether the number is neither infinite nor the value that is no number. -/
def isFinite : Binary64 → Bool
  | .finite .. => true
  | _ => false

end Binary64

end Marginalia.Number
