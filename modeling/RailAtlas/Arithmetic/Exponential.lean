import RailAtlas.Arithmetic.Binary

/-!
# Powers of two with a fractional exponent

`exp2 x` is computed in doubles. The exponent is split into a whole number of steps of `1 / 128`
and a rest `r` of at most half a step. A power of two to a step is known to twice the precision of
a double: as the nearest double and the relative error that it leaves. The excess `2 ^ r - 1` is a
polynomial of fifth degree. One multiplication and one addition join the two, so the result is the
nearest double but for rare inputs that lie almost halfway between two of them.

The two parts of a step come from a chain of integer square roots: `2 ^ 0.b₁b₂b₃…` is the square
root of `2 ^ b₁ * 2 ^ 0.b₂b₃…`.
-/

namespace RailAtlas

namespace Exponential

/-- Newton's iteration for the whole square root, from above. It stops when a step no longer
falls; `fuel` bounds the number of steps. -/
def newtonRoot (n : Nat) : (fuel : Nat) → (guess : Nat) → Nat
  | 0, guess => guess
  | fuel + 1, guess =>
    let next := (guess + n / guess) / 2
    if next < guess then newtonRoot n fuel next else guess

def wholeRoot (n : Nat) : Nat :=
  if n = 0 then 0 else newtonRoot n (n.log2 + 2) (Nat.pow 2 (n.log2 / 2 + 1))

/-- Binary places carried by the chain of square roots. -/
def workingPlaces : Nat := 192

/-- `2 ^ (fraction / 2 ^ bits)` with `workingPlaces` places, one square root for each bit from
the last to the first. -/
def fractionalPower : (bits : Nat) → (fraction : Nat) → (value : Nat) → Nat
  | 0, _, value => value
  | bits + 1, fraction, value =>
    fractionalPower bits (fraction / 2)
      (wholeRoot (value * Nat.pow 2 (fraction % 2) * Nat.pow 2 workingPlaces))

/-- Binary places of the exponent of a step: there are 128 steps from one whole exponent to the
next. -/
def stepPlaces : Nat := 7

/-- A power of two to about twice the precision of a double: the nearest double, and the
relative error `power / head - 1` that it leaves. -/
structure Step where
  head : Float
  tail : Float

/-- The power of two whose exponent is a number of steps below one whole. -/
def Step.ofFraction (fraction : Nat) : Step :=
  let value := fractionalPower stepPlaces fraction (Nat.pow 2 workingPlaces)
  let unit := Nat.pow 2 (workingPlaces - 52)
  let digits := (value + unit / 2) / unit
  let rest : Int := value - digits * unit
  let error := nearestBinary (rest.natAbs * Nat.pow 2 52 / digits) (-workingPlaces)
  { head := nearestBinary digits (-52), tail := if rest < 0 then -error else error }

/-- A multiple of a step so large that neighbouring doubles are one step apart. -/
def anchor : Float :=
  3 * powerOfTwo 44

/-- The whole number of steps nearest to an exponent, a tie going to the even one: adding the
anchor rounds to it. -/
def nearestSteps (x : Float) : Float :=
  x + anchor - anchor

/-- The relative amount by which `2 ^ r` times a step exceeds the step's head, where `r` is at most
half a step: the error of the head and the polynomial for `2 ^ r - 1`, whose first coefficient is
the natural logarithm of two. -/
def excess (tail r : Float) : Float :=
  let c₁ := Float.ofBits 0x3fe62e42fefa39ef
  let c₂ := Float.ofBits 0x3fcebfbdff82c424
  let c₃ := Float.ofBits 0x3fac6b08d70cf4b5
  let c₄ := Float.ofBits 0x3f83b2abd24650cc
  let c₅ := Float.ofBits 0x3f55d7e09b4e3a84
  let square := r * r
  tail + r * c₁ + square * (c₂ + r * c₃) + square * square * (c₄ + r * c₅)

/-- `scale * (1 + excess)`, but a value below one with only 52 places behind the point: the error of
the sum is kept and added when those places are chosen, so the value is rounded once. -/
def joined (scale excess : Float) : Float :=
  let value := scale + scale * excess
  if value < 1 then
    let rest := scale - value + scale * excess
    let sum := 1 + value
    let rest := 1 - sum + value + rest
    sum + rest - 1
  else value

end Exponential

open Exponential in
/-- `2 ^ x` as a double. Below the range of full precision the value is formed 1022 binary places
higher, where the last subnormal place is that of a number just above one. -/
def exp2 (x : Float) : Float :=
  if x.isNaN then x
  else if 1024 ≤ x then infinity
  else if x ≤ -1075 then 0
  else if x.abs < powerOfTwo (-54) then 1 + x
  else
    let near := nearestSteps x
    let steps := (Binary.ofFloat near).floorScaled stepPlaces
    let whole := steps.fdiv (Nat.pow 2 stepPlaces)
    let step := Step.ofFraction (steps.fmod (Nat.pow 2 stepPlaces)).toNat
    let surplus := excess step.tail (x - near)
    if x < -928 then
      powerOfTwo (-1022) * joined (step.head * powerOfTwo (whole + 1022)) surplus
    else
      let half := step.head * powerOfTwo (whole - 1)
      2 * (half + half * surplus)

end RailAtlas
