import RailAtlas.Yaml.Node

/-!
# Integers in YAML

An integer is decimal, or it is hexadecimal, octal or binary behind a marked base. It may have a
sign. A decimal integer with a needless zero in front is text, not a number.
-/

namespace RailAtlas.Yaml

/-- The number that digits of a base spell. There has to be one. -/
def digitsInBase? (base : Nat) : List Char → Option Nat
  | [] => none
  | cs => cs.foldlM (fun n c => do
      let d ← hexValue? c
      if d < base then some (base * n + d) else none) 0

def magnitude? : List Char → Option Nat
  | '0' :: 'x' :: digits => digitsInBase? 16 digits
  | '0' :: 'o' :: digits => digitsInBase? 8 digits
  | '0' :: 'b' :: digits => digitsInBase? 2 digits
  | '0' :: _ :: _ => none
  | digits => digitsInBase? 10 digits

/-- An integer with an optional sign. -/
def signedInteger? : List Char → Option Int
  | '+' :: rest => (magnitude? rest).map Int.ofNat
  | '-' :: rest => (magnitude? rest).map fun n => -(n : Int)
  | cs => (magnitude? cs).map Int.ofNat

/-- An integer that may not have a minus sign, not even on zero. -/
def unsignedInteger? : List Char → Option Nat
  | '+' :: rest => magnitude? rest
  | cs => magnitude? cs

/-- The text of a scalar that may be read as an integer: any plain scalar, and a literal block that
is tagged as an integer. A tag is compared byte by byte. -/
def Scalar.integerText? (s : Scalar) : Option (List Char) :=
  if s.style = .plain ∨ s.style = .literal ∧ s.tag = some integerTag then
    some s.text.toList
  else none

end RailAtlas.Yaml
