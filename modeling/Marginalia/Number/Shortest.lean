import Marginalia.Number.Binary64

/-!
# The shortest decimal of a binary number

A binary number is written with the fewest decimal digits that read back to it.  For each count of
digits the two neighbours of the number on the grid of decimals of that length are tried; the first
grid with a neighbour that reads back wins, and of two such neighbours the nearer one.
-/

namespace Marginalia.Number

/-- A decimal: `digits * 10 ^ exponent`. -/
structure Decimal where
  digits : Nat
  exponent : Int
deriving Repr, DecidableEq

/-- The distance between a decimal and a fraction, times the fraction's denominator and the
    decimal's. -/
def Decimal.distance (decimal : Decimal) (numerator denominator : Nat) : Nat :=
  let (up, down) := power 10 decimal.exponent
  ((decimal.digits * up * denominator : Int) - numerator * down).natAbs

/-- The decimals with `count` digits next to `mantissa * 2 ^ exponent` that read back to it. -/
def neighbours (mantissa : Nat) (exponent : Int) (count : Nat) : List Decimal :=
  let (numerator, denominator) :=
    let (up, down) := power 2 exponent
    (mantissa * up, down)
  let grid := decimalOrder numerator denominator - count + 1
  let (up, down) := power 10 grid
  let below := numerator * down / (denominator * up)
  let readBack := [⟨below, grid⟩, ⟨below + 1, grid⟩].filter fun decimal : Decimal =>
    Binary64.ofDecimal false decimal.digits decimal.exponent = .finite false mantissa exponent
  match readBack with
  | [low, high] =>
    let lower := low.distance numerator denominator
    let higher := high.distance numerator denominator
    if lower < higher then [low]
    else if higher < lower then [high]
    else if low.digits % 2 = 0 then [low] else [high]
  | _ => readBack

/-- The decimal with the fewest digits that reads back to `mantissa * 2 ^ exponent`.  Seventeen
    digits always suffice. -/
def shortest (mantissa : Nat) (exponent : Int) : Decimal :=
  ((List.range 17).flatMap fun more => neighbours mantissa exponent (more + 1)).headD ⟨0, 0⟩

/-- Where a decimal is written with a point among its digits instead of a power of ten: for the
    orders from `positionalFrom` on and below `positionalBelow`. -/
structure DecimalForm where
  positionalFrom : Int
  positionalBelow : Int
  exponentDigits : Nat

/-- Numbers from a ten-thousandth to ten to the sixteenth are written positionally, the others with
    an exponent of at least two digits. -/
def DecimalForm.plain : DecimalForm := ⟨-4, 16, 2⟩

/-- The decimal digits of a number. -/
def digitsOf (value : Nat) : List Char :=
  Nat.toDigits 10 value

/-- The digits of a decimal without zeros at the end, and the order of the first of them. -/
def Decimal.significant (decimal : Decimal) : List Char × Int :=
  let all := digitsOf decimal.digits
  let kept := (all.reverse.dropWhile (· = '0')).reverse
  (if kept.isEmpty then ['0'] else kept, decimal.exponent + all.length - 1)

/-- The text of significant digits whose first has the given order. -/
def DecimalForm.write (form : DecimalForm) (digits : List Char) (order : Int) : List Char :=
  if form.positionalFrom ≤ order ∧ order < form.positionalBelow then
    if order < 0 then
      '0' :: '.' :: List.replicate (order.natAbs - 1) '0' ++ digits
    else
      let whole := order.toNat + 1
      let fraction := digits.drop whole
      digits.take whole ++ List.replicate (whole - digits.length) '0' ++
        '.' :: (if fraction.isEmpty then ['0'] else fraction)
  else
    let power := digitsOf order.natAbs
    digits.take 1 ++ (if digits.length ≤ 1 then [] else '.' :: digits.drop 1) ++
      'e' :: (if order < 0 then '-' else '+') ::
        List.replicate (form.exponentDigits - power.length) '0' ++ power

/-- The text of a binary number. -/
def Binary64.text (number : Binary64) : String :=
  match number with
  | .notANumber => "nan"
  | .infinite negative => if negative then "-inf" else "inf"
  | .finite negative mantissa exponent =>
    let unsigned :=
      if mantissa = 0 then "0.0".toList
      else
        let (digits, order) := (shortest mantissa exponent).significant
        DecimalForm.plain.write digits order
    String.ofList (if negative then '-' :: unsigned else unsigned)

example : (Binary64.ofDecimal false 30000000000000004 (-17)).text = "0.30000000000000004" := by
  decide +kernel
example : (Binary64.ofDecimal true 1 (-5)).text = "-1e-05" := by decide +kernel
example : (Binary64.ofDecimal false 1 22).text = "1e+22" := by decide +kernel

end Marginalia.Number
