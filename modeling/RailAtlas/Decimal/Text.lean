import RailAtlas.Decimal.Shortest

/-!
# Doubles as text

Two notations use the fewest digits that read back: the plain one, which never has an exponent,
and one with bounds outside which an exponent is written; a `FloatLayout` says which. A third
writes one decimal place of the exact value.
-/

namespace RailAtlas

namespace Decimal

def digitText (d : Decimal) : List Char :=
  Nat.toDigits 10 d.digits

def leadingExponent (d : Decimal) : Int :=
  d.exponent + d.digitText.length - 1

/-- Positional notation, with `wholeMark` after a number that has no digits behind the point. -/
def positional (wholeMark : String) (d : Decimal) : String :=
  let text := d.digitText
  if 0 ≤ d.exponent then
    String.ofList (text ++ List.replicate d.exponent.toNat '0') ++ wholeMark
  else
    let whole := text.length - (-d.exponent).toNat
    if 0 < whole then String.ofList (text.take whole ++ '.' :: text.drop whole)
    else
      String.ofList
        ('0' :: '.' :: List.replicate ((-d.exponent).toNat - text.length) '0' ++ text)

/-- One digit before the point, then an exponent that always has its sign. -/
def scientific (d : Decimal) : String :=
  let mark := if d.leadingExponent < 0 then "e-" else "e+"
  let significand := match d.digitText with
    | first :: second :: rest => String.ofList (first :: '.' :: second :: rest)
    | short => String.ofList short
  significand ++ mark ++ toString d.leadingExponent.natAbs

end Decimal

/-- How a finite double is written: what follows a whole number, for which exponents of the first
digit positional notation is used (`none`: for all), and which of two equally short and equally
near decimals is taken. -/
structure FloatLayout where
  wholeMark : String
  positionalRange : Option (Int × Int)
  tie : Tie

namespace FloatLayout

/-- Digits only, however large or small the number is. A tie goes away from zero. -/
def plain : FloatLayout :=
  { wholeMark := "", positionalRange := none, tie := .away }

/-- Positional from `10 ^ -5` up to `10 ^ 16`, and a point in every positional number. A tie goes to
the even digit. -/
def interchange : FloatLayout :=
  { wholeMark := ".0", positionalRange := some (-5, 15), tie := .toEven }

def decimal (layout : FloatLayout) (d : Decimal) : String :=
  if d.digits = 0 then "0" ++ layout.wholeMark
  else
    match layout.positionalRange with
    | none => d.positional layout.wholeMark
    | some (least, greatest) =>
      if least ≤ d.leadingExponent ∧ d.leadingExponent ≤ greatest then
        d.positional layout.wholeMark
      else d.scientific

/-- A finite double with its sign. A negative zero keeps it. -/
def finite (layout : FloatLayout) (x : Float) : String :=
  let b := Binary.ofFloat x
  (if b.negative then "-" else "") ++ layout.decimal (b.shortest layout.tie)

end FloatLayout

def nonFiniteText (x : Float) : String :=
  if x.isNaN then "NaN" else if x < 0 then "-inf" else "inf"

/-- The fewest digits that read back, never with an exponent. -/
def plainText (x : Float) : String :=
  if x.isFinite then FloatLayout.plain.finite x else nonFiniteText x

/-- The magnitude in tenths, the exact value rounded with a half going to the even neighbour. -/
def Binary.tenths (b : Binary) : Nat :=
  let q := Quotient.ofBinary (10 * b.mantissa) b.exponent
  let below := q.numerator / q.denominator
  let twice := 2 * (q.numerator % q.denominator)
  if q.denominator < twice ∨ (twice = q.denominator ∧ below % 2 = 1) then below + 1 else below

/-- One decimal place. The sign of a negative number stays even when every digit is zero. -/
def oneDecimal (x : Float) : String :=
  if x.isFinite then
    let b := Binary.ofFloat x
    let t := b.tenths
    (if b.negative then "-" else "") ++ toString (t / 10) ++ "." ++ toString (t % 10)
  else nonFiniteText x

end RailAtlas
