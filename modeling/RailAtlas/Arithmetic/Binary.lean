/-!
# Binary64 numbers written out

A finite double is `± mantissa * 2 ^ exponent` with whole numbers for both. Everything that a
double has to be asked exactly (its floor, its decimal digits, its power of two) is answered
from these two numbers, so no question depends on a rounding of its own.
-/

namespace RailAtlas

/-- A finite double written out: its value is `mantissa * 2 ^ exponent`, negated when `negative`
is set. The sign is kept apart so that the two zeros stay different. -/
structure Binary where
  negative : Bool
  mantissa : Nat
  exponent : Int
deriving DecidableEq

namespace Binary

/-- The fields of a double's encoding. A zero exponent field is the subnormal row, which has no
implicit leading bit and the exponent of the smallest normal row. -/
def ofBits (bits : Nat) : Binary :=
  let field : Nat := bits / Nat.pow 2 52 % 2048
  let fraction : Nat := bits % Nat.pow 2 52
  { negative := bits / Nat.pow 2 63 % 2 == 1
    mantissa := if field = 0 then fraction else fraction + Nat.pow 2 52
    exponent := (if field = 0 then 1 else (field : Int)) - 1075 }

/-- A finite double written out. -/
def ofFloat (x : Float) : Binary :=
  ofBits x.toBits.toNat

def signed (b : Binary) : Int :=
  if b.negative then -(b.mantissa : Int) else b.mantissa

/-- The largest whole number that is at most `signed * 2 ^ (exponent + places)`: the value with
`places` binary places kept and the rest cut off towards minus infinity. -/
def floorScaled (b : Binary) (places : Nat) : Int :=
  let shift := b.exponent + places
  if 0 ≤ shift then b.signed * Nat.pow 2 shift.toNat else b.signed.fdiv (Nat.pow 2 (-shift).toNat)

def floor (b : Binary) : Int :=
  b.floorScaled 0

end Binary

def infinity : Float :=
  Float.ofBits 0x7ff0000000000000

/-- The double nearest to `2 ^ e`: exact from the smallest subnormal to the largest power in
range, zero below and infinity above. -/
def powerOfTwo (e : Int) : Float :=
  if 1024 ≤ e then infinity
  else if -1022 ≤ e then Float.ofBits (UInt64.ofNat ((e + 1023).toNat * Nat.pow 2 52))
  else if -1074 ≤ e then Float.ofBits (UInt64.ofNat (Nat.pow 2 (e + 1074).toNat))
  else 0

/-- The double nearest to `m * 2 ^ e`, a tie going to the even neighbour. At most 53 bits are
kept, and none below the last subnormal place. -/
def nearestBinary (m : Nat) (e : Int) : Float :=
  let places : Int := m.log2 + 1
  let last := max (e + places - 53) (-1074)
  let drop := last - e
  if drop ≤ 0 then Float.ofNat m * powerOfTwo e
  else
    let unit := Nat.pow 2 drop.toNat
    let kept := m / unit
    let rest := m % unit
    let roundUp := decide (unit < 2 * rest) || (decide (2 * rest = unit) && kept % 2 == 1)
    Float.ofNat (if roundUp then kept + 1 else kept) * powerOfTwo last

/-- The whole part of a double, towards minus infinity, as a signed 64-bit quantity: a value out
of range goes to the nearer end of the range, and a value that is no number to zero. -/
def floorClamped (x : Float) : Int :=
  if x.isNaN then 0
  else if x.isFinite then max (-Nat.pow 2 63) (min (Nat.pow 2 63 - 1) (Binary.ofFloat x).floor)
  else if x < 0 then -Nat.pow 2 63
  else Nat.pow 2 63 - 1

/-- The larger of two doubles, where a value that is no number gives way to the other. -/
def larger (a b : Float) : Float :=
  if a.isNaN then b else if b.isNaN then a else if a < b then b else a

/-- The smaller of two doubles, where a value that is no number gives way to the other. -/
def smaller (a b : Float) : Float :=
  if a.isNaN then b else if b.isNaN then a else if b < a then b else a

end RailAtlas
