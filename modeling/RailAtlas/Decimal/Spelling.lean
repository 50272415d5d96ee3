import RailAtlas.Decimal.Numeral

/-!
# Numbers as people write them

Natural numbers of 64 bits and doubles as they are given on a command line. Both may have a plus
sign; nothing may stand around the number.
-/

namespace RailAtlas

/-- A natural number below `2 ^ 64`, perhaps with a plus sign. -/
def wordOfText? (text : String) : Option UInt64 :=
  let digits := match text.toList with
    | '+' :: rest => rest
    | cs => cs
  if digits.isEmpty || !digits.all Char.isDigit then none
  else
    let n := decimalValue 0 digits
    if n < Nat.pow 2 64 then some (UInt64.ofNat n) else none

/-- A sign, if there is one, and what follows it. -/
def signOf : List Char → Bool × List Char
  | '-' :: rest => (true, rest)
  | '+' :: rest => (false, rest)
  | cs => (false, cs)

/-- The exponent that ends a decimal: nothing, or a letter and an integer. -/
def exponentOf? : List Char → Option Int
  | [] => some 0
  | mark :: cs =>
    let (negative, digits) := signOf cs
    if (mark == 'e' || mark == 'E') && !digits.isEmpty && digits.all Char.isDigit then
      let n : Int := decimalValue 0 digits
      some (if negative then -n else n)
    else none

/-- A decimal without its sign. There are digits in front of the point or behind it. -/
def decimalOf? (negative : Bool) (cs : List Char) : Option Numeral := do
  let whole := cs.takeWhile Char.isDigit
  let rest := cs.dropWhile Char.isDigit
  let (fraction, rest) := match rest with
    | '.' :: more => (more.takeWhile Char.isDigit, more.dropWhile Char.isDigit)
    | _ => ([], rest)
  guard !(whole ++ fraction).isEmpty
  let exponent ← exponentOf? rest
  return {
    negative
    digits := decimalValue 0 (whole ++ fraction)
    exponent := exponent - fraction.length }

/-- A double: a decimal, or one of the names of infinity and of no number, in letters of either
case. -/
def floatOfText? (text : String) : Option Float :=
  let (negative, cs) := signOf text.toList
  let name := String.ofList (cs.map Char.toLower)
  if name == "inf" || name == "infinity" then some (if negative then -infinity else infinity)
  else if name == "nan" then some (0 / 0)
  else (decimalOf? negative cs).map Numeral.toFloat

end RailAtlas
