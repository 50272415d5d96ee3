import RailAtlas.Decimal.Numeral
import RailAtlas.Ident.Basic

/-!
# Identifiers as text

An entity identifier is written as 32 lower-case hexadecimal digits in hyphenated groups of eight,
four, four, four and twelve. Four spellings are read, in either case: the hyphenated one, the same
in braces or behind `urn:uuid:`, and the bare digits.
-/

namespace RailAtlas

namespace EntityId

/-- Sizes of the hyphenated groups. -/
def groups : List Nat := [8, 4, 4, 4, 12]

def hexDigits (e : EntityId) : List Char :=
  (List.range 32).map fun i => Nat.digitChar (e.bits.toNat >>> (4 * (31 - i)) % 16)

/-- Cut a list into groups, a hyphen before every group but the first. -/
def hyphenate : (sizes : List Nat) → List Char → List Char
  | [], cs => cs
  | [_], cs => cs
  | n :: sizes, cs => cs.take n ++ '-' :: hyphenate sizes (cs.drop n)

def render (e : EntityId) : String :=
  String.ofList (hyphenate groups e.hexDigits)

/-- The number spelled by hexadecimal digits. -/
def hexNumber? (cs : List Char) : Option Nat :=
  cs.foldlM (fun n c => (hexValue? c).map (16 * n + ·)) 0

/-- Take the hyphens out of a grouped spelling, which must have them exactly between groups. -/
def ungroup? : (sizes : List Nat) → List Char → Option (List Char)
  | [], cs => some cs
  | [_], cs => some cs
  | n :: sizes, cs =>
    match cs.drop n with
    | '-' :: rest => (ungroup? sizes rest).map (cs.take n ++ ·)
    | _ => none

def ofHyphenated? (cs : List Char) : Option EntityId := do
  let digits ← ungroup? groups cs
  guard (digits.length = 32)
  return ofNat (← hexNumber? digits)

/-- Read any of the four spellings. The length tells which one it has to be. -/
def parse? (text : String) : Option EntityId :=
  let cs := text.toList
  match cs.length with
  | 32 => (hexNumber? cs).map ofNat
  | 36 => ofHyphenated? cs
  | 38 =>
    if cs.head? = some '{' ∧ cs.getLast? = some '}' then ofHyphenated? (cs.drop 1).dropLast
    else none
  | 45 =>
    if cs.take 9 = "urn:uuid:".toList then ofHyphenated? (cs.drop 9) else none
  | _ => none

end EntityId

end RailAtlas
