import RailAtlas.Arithmetic.Binary

/-!
# Decimal numerals

A numeral is a written number: a sign, digits, and a power of ten. Reading one as a double rounds
the exact value once, to the nearest double and with ties to even.
-/

namespace RailAtlas

/-- A written decimal: `± digits * 10 ^ exponent`. -/
structure Numeral where
  negative : Bool
  digits : Nat
  exponent : Int
deriving DecidableEq

namespace Numeral

/-- How many decimal digits a whole number has, at least one. -/
def digitCount (n : Nat) : Nat :=
  (Nat.toDigits 10 n).length

/-- The magnitude as the nearest double. Numerals far outside the range are settled by the
place of their first digit, before any large power of ten is formed. -/
def magnitude (n : Numeral) : Float :=
  if n.digits = 0 then 0
  else
    let top := n.exponent + digitCount n.digits
    if 400 < top then infinity
    else if top < -400 then 0
    else Float.ofScientific n.digits (decide (n.exponent < 0)) n.exponent.natAbs

/-- The nearest double, with the sign of the numeral (also on zero). -/
def toFloat (n : Numeral) : Float :=
  if n.negative then -n.magnitude else n.magnitude

end Numeral

def digitValue? (c : Char) : Option Nat :=
  if c.isDigit then some (c.toNat - '0'.toNat) else none

def hexValue? (c : Char) : Option Nat :=
  if c.isDigit then some (c.toNat - '0'.toNat)
  else if 'a' ≤ c ∧ c ≤ 'f' then some (c.toNat - 'a'.toNat + 10)
  else if 'A' ≤ c ∧ c ≤ 'F' then some (c.toNat - 'A'.toNat + 10)
  else none

/-- The number that a list of decimal digits spells, taken as a continuation of `start`. -/
def decimalValue (start : Nat) (cs : List Char) : Nat :=
  cs.foldl (fun n c => 10 * n + (c.toNat - '0'.toNat)) start

end RailAtlas
