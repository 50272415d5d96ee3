import RailAtlas.Decimal.Numeral
import RailAtlas.Decimal.Shortest

/-!
# JSON values

A number keeps its written form, so that whole numbers of any size and the sign of zero survive. A
string literal whose escapes do not spell Unicode text (an unpaired surrogate) is kept as a literal
without text: it can be skipped but not read.
-/

namespace RailAtlas

/-- A JSON number as written. `whole` says that it has neither a fraction nor an exponent. -/
structure JsonNumber where
  numeral : Numeral
  whole : Bool
deriving DecidableEq

/-- A JSON value. Fields of objects are kept in order, repeated ones too. -/
inductive Json where
  | null
  | bool (b : Bool)
  | number (n : JsonNumber)
  | string (text : Option String)
  | array (items : List Json)
  | object (fields : List (Option String × Json))

namespace Json

def text (s : String) : Json :=
  .string (some s)

def ofInt (n : Int) : Json :=
  .number
    { numeral := { negative := decide (n < 0), digits := n.natAbs, exponent := 0 }, whole := true }

def ofNat (n : Nat) : Json :=
  ofInt n

def record (fields : List (String × Json)) : Json :=
  .object (fields.map fun (name, value) => (some name, value))

/-- A double as a JSON number with the fewest digits that read back. There is no number for a
double that is not finite; `null` stands for it. -/
def ofFloat (x : Float) : Json :=
  if x.isFinite then
    let b := Binary.ofFloat x
    let d := b.shortest .toEven
    .number
      { numeral := { negative := b.negative, digits := d.digits, exponent := d.exponent }
        whole := false }
  else .null

/-- A field of an object that is known to have no repeated names. -/
def field? (j : Json) (name : String) : Option Json :=
  match j with
  | .object fields => (fields.find? fun f => f.1 == some name).map (·.2)
  | _ => none

/-- A whole number, if the value is one. A negative zero is not whole. -/
def int? : Json → Option Int
  | .number n =>
    if n.whole && !(n.numeral.negative && n.numeral.digits == 0) then
      some (if n.numeral.negative then -(n.numeral.digits : Int) else n.numeral.digits)
    else none
  | _ => none

/-- A whole number below `2 ^ 64`. -/
def uint64? (j : Json) : Option UInt64 := do
  let n ← j.int?
  if 0 ≤ n ∧ n < Nat.pow 2 64 then some (UInt64.ofNat n.toNat) else none

/-- A finite double, if the value is a number in range. -/
def float? : Json → Option Float
  | .number n =>
    let x := n.numeral.toFloat
    if x.isFinite then some x else none
  | _ => none

def text? : Json → Option String
  | .string s => s
  | _ => none

end Json

end RailAtlas
