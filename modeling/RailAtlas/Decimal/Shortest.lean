import RailAtlas.Arithmetic.Binary

/-!
# The fewest digits that read back

A finite nonzero double stands for every real that rounds to it: an interval around its value,
closed exactly when the mantissa is even. `Binary.shortest` is the decimal with the fewest digits
inside that interval, and among those of equal length the one nearest to the value; where two are
equally near, a `Tie` says which. All comparisons are between whole numbers.
-/

namespace RailAtlas

/-- The positive decimal `digits * 10 ^ exponent`. -/
structure Decimal where
  digits : Nat
  exponent : Int
deriving DecidableEq

namespace Decimal

/-- The same value without trailing zeros. `fuel` bounds the number of zeros taken off. -/
def stripZeros : (fuel : Nat) → Decimal → Decimal
  | 0, d => d
  | fuel + 1, d =>
    if d.digits % 10 = 0 ∧ d.digits ≠ 0 then
      stripZeros fuel { digits := d.digits / 10, exponent := d.exponent + 1 }
    else d

end Decimal

structure Quotient where
  numerator : Nat
  denominator : Nat

namespace Quotient

/-- `m * 2 ^ e`. -/
def ofBinary (m : Nat) (e : Int) : Quotient :=
  if 0 ≤ e then { numerator := m * Nat.pow 2 e.toNat, denominator := 1 }
  else { numerator := m, denominator := Nat.pow 2 (-e).toNat }

def overTenTo (q : Quotient) (e : Int) : Quotient :=
  if 0 ≤ e then { q with denominator := q.denominator * Nat.pow 10 e.toNat }
  else { q with numerator := q.numerator * Nat.pow 10 (-e).toNat }

def atLeastOne (q : Quotient) : Bool :=
  q.denominator ≤ q.numerator

/-- The exponent of the first decimal digit: the `e` with `10 ^ e ≤ q < 10 ^ (e + 1)`, found by
moving an estimate that is off by at most `fuel`. -/
def firstDigit (q : Quotient) : (fuel : Nat) → (estimate : Int) → Int
  | 0, e => e
  | fuel + 1, e =>
    if !(q.overTenTo e).atLeastOne then firstDigit q fuel (e - 1)
    else if (q.overTenTo (e + 1)).atLeastOne then firstDigit q fuel (e + 1)
    else e

end Quotient

/-- Which of two equally near neighbours is taken: the one whose last digit is even, or the one
farther from zero. -/
inductive Tie where
  | toEven
  | away
deriving DecidableEq

/-- Whether the upper neighbour is taken, for the digits of the lower one. -/
def Tie.takesUpper (tie : Tie) (below : Nat) : Bool :=
  match tie with
  | .toEven => below % 2 == 1
  | .away => true

namespace Binary

/-- The reals that round to a double, in quarters of its last place. -/
structure RoundingInterval where
  low : Nat
  value : Nat
  high : Nat
  closed : Bool

/-- The interval of a positive mantissa. The gap below a power of two is half as wide as the one
above it, except in the lowest row. -/
def roundingInterval (b : Binary) : RoundingInterval :=
  let belowIsNarrow := b.mantissa == Nat.pow 2 52 && decide (-1074 < b.exponent)
  { low := 4 * b.mantissa - if belowIsNarrow then 1 else 2
    value := 4 * b.mantissa
    high := 4 * b.mantissa + 2
    closed := b.mantissa % 2 == 0 }

/-- Whether `digits * 10 ^ place` lies in the rounding interval, where `scale` is a quarter of the
last place divided by `10 ^ place`. -/
def RoundingInterval.holds (i : RoundingInterval) (scale : Quotient) (digits : Nat) : Bool :=
  let grid := digits * scale.denominator
  if i.closed then
    decide (i.low * scale.numerator ≤ grid) && decide (grid ≤ i.high * scale.numerator)
  else
    decide (i.low * scale.numerator < grid) && decide (grid < i.high * scale.numerator)

/-- The best decimal with its last digit at `place`, if one reads back: of the two neighbours of
the value on that grid the nearer one that is in the interval. -/
def candidate (b : Binary) (tie : Tie) (place : Int) : Option Nat :=
  let i := b.roundingInterval
  let scale := (Quotient.ofBinary 1 (b.exponent - 2)).overTenTo place
  let scaled := i.value * scale.numerator
  let below := scaled / scale.denominator
  let rest := scaled % scale.denominator
  let preferAbove :=
    decide (scale.denominator < 2 * rest) ||
      (decide (scale.denominator = 2 * rest) && tie.takesUpper below)
  match i.holds scale below && below != 0, i.holds scale (below + 1) with
  | true, true => some (if preferAbove then below + 1 else below)
  | true, false => some below
  | false, true => some (below + 1)
  | false, false => none

/-- Try one more digit at a time, starting at `place`. -/
def shortestFrom (b : Binary) (tie : Tie) : (fuel : Nat) → (place : Int) → Decimal
  | 0, place => { digits := (b.candidate tie place).getD 0, exponent := place }
  | fuel + 1, place =>
    match b.candidate tie place with
    | some digits => { digits, exponent := place }
    | none => shortestFrom b tie fuel (place - 1)

/-- The decimal with the fewest digits that rounds to a finite double, leaving out its sign.
Seventeen digits always suffice. -/
def shortest (b : Binary) (tie : Tie) : Decimal :=
  if b.mantissa = 0 then { digits := 0, exponent := 0 } else
  let estimate := (b.exponent + b.mantissa.log2) * 30103 / 100000
  let first := (Quotient.ofBinary b.mantissa b.exponent).firstDigit 4 estimate
  (b.shortestFrom tie 17 first).stripZeros 20

end Binary

end RailAtlas
