import RailAtlas.Json.Value

/-!
# Reading JSON

Exactly the JSON grammar is accepted: one value with blanks around it and nothing else. The only
leniency is that a string literal may hold an escape for an unpaired surrogate; it is then a literal
without text.
-/

namespace RailAtlas

namespace Json

/-- Blanks between tokens. -/
def isBlank (c : Char) : Bool :=
  c == ' ' || c == '\t' || c == '\n' || c == '\r'

def skipBlanks (cs : List Char) : List Char :=
  cs.dropWhile isBlank

/-- The digits at the front, of which there has to be one, and the rest. -/
def digits? (cs : List Char) : Option (List Char × List Char) :=
  match cs.takeWhile Char.isDigit with
  | [] => none
  | ds => some (ds, cs.dropWhile Char.isDigit)

/-- The whole part of a number: no zero in front of other digits. -/
def wholePart? (cs : List Char) : Option (List Char × List Char) := do
  let (ds, rest) ← digits? cs
  if ds.head? = some '0' ∧ ds.length ≠ 1 then none else some (ds, rest)

def fractionPart? : List Char → Option (List Char × List Char)
  | '.' :: rest => digits? rest
  | cs => some ([], cs)

def exponentPart? : List Char → Option (Option Int × List Char)
  | c :: rest =>
    if c = 'e' ∨ c = 'E' then do
      let (negative, rest) := match rest with
        | '-' :: more => (true, more)
        | '+' :: more => (false, more)
        | _ => (false, rest)
      let (ds, rest) ← digits? rest
      let n : Int := decimalValue 0 ds
      some (some (if negative then -n else n), rest)
    else some (none, c :: rest)
  | [] => some (none, [])

def number? (negative : Bool) (cs : List Char) : Option (JsonNumber × List Char) := do
  let (ds, rest) ← wholePart? cs
  let (fraction, rest) ← fractionPart? rest
  let (exponent, rest) ← exponentPart? rest
  let n :=
    { numeral :=
        { negative
          digits := decimalValue 0 (ds ++ fraction)
          exponent := exponent.getD 0 - fraction.length }
      whole := fraction.isEmpty && exponent.isNone }
  some (n, rest)

/-- The character that a one-letter escape stands for. -/
def simpleEscape? : Char → Option Char
  | '"' => some '"'
  | '\\' => some '\\'
  | '/' => some '/'
  | 'b' => some (Char.ofNat 8)
  | 'f' => some (Char.ofNat 12)
  | 'n' => some '\n'
  | 'r' => some '\r'
  | 't' => some '\t'
  | _ => none

/-- The number spelled by four hexadecimal digits. -/
def unit? (a b c d : Char) : Option Nat := do
  let a ← hexValue? a
  let b ← hexValue? b
  let c ← hexValue? c
  let d ← hexValue? d
  some (((a * 16 + b) * 16 + c) * 16 + d)

/-- The text read so far, last character first. `high` is a leading surrogate that waits for its
partner, and `sound` is lost for good when a surrogate stays alone. -/
structure TextSoFar where
  chars : List Char
  high : Option Nat
  sound : Bool

namespace TextSoFar

def start : TextSoFar :=
  { chars := [], high := none, sound := true }

def push (t : TextSoFar) (c : Char) : TextSoFar :=
  { chars := c :: t.chars, high := none, sound := t.sound && t.high.isNone }

def pushUnit (t : TextSoFar) (n : Nat) : TextSoFar :=
  if 0xd800 ≤ n ∧ n < 0xdc00 then { t with high := some n, sound := t.sound && t.high.isNone }
  else if 0xdc00 ≤ n ∧ n < 0xe000 then
    match t.high with
    | some high =>
      let c := Char.ofNat (0x10000 + (high - 0xd800) * 1024 + (n - 0xdc00))
      { chars := c :: t.chars, high := none, sound := t.sound }
    | none => { t with sound := false }
  else t.push (Char.ofNat n)

def finish (t : TextSoFar) : Option String :=
  if t.sound && t.high.isNone then some (String.ofList t.chars.reverse) else none

end TextSoFar

/-- The rest of a string literal behind its opening quote. -/
def literal? (t : TextSoFar) : List Char → Option (Option String × List Char)
  | [] => none
  | '"' :: rest => some (t.finish, rest)
  | '\\' :: 'u' :: a :: b :: c :: d :: rest =>
    match unit? a b c d with
    | some n => literal? (t.pushUnit n) rest
    | none => none
  | '\\' :: c :: rest =>
    match simpleEscape? c with
    | some c => literal? (t.push c) rest
    | none => none
  | c :: rest => if c.toNat < 32 || c == '\\' then none else literal? (t.push c) rest

/-- What follows a word, if the word is at the front. -/
def word? (word : List Char) (cs : List Char) : Option (List Char) :=
  if word.isPrefixOf cs then some (cs.drop word.length) else none

mutual

/-- One value and what follows it. `fuel` bounds the number of calls. -/
def value? : (fuel : Nat) → List Char → Option (Json × List Char)
  | 0, _ => none
  | fuel + 1, cs =>
    match skipBlanks cs with
    | 'n' :: rest => (word? ['u', 'l', 'l'] rest).map fun rest => (.null, rest)
    | 't' :: rest => (word? ['r', 'u', 'e'] rest).map fun rest => (.bool true, rest)
    | 'f' :: rest => (word? ['a', 'l', 's', 'e'] rest).map fun rest => (.bool false, rest)
    | '"' :: rest => (literal? .start rest).map fun (s, rest) => (.string s, rest)
    | '-' :: rest => (number? true rest).map fun (n, rest) => (.number n, rest)
    | '[' :: rest =>
      match skipBlanks rest with
      | ']' :: rest => some (.array [], rest)
      | rest => items? fuel [] rest
    | '{' :: rest =>
      match skipBlanks rest with
      | '}' :: rest => some (.object [], rest)
      | rest => fields? fuel [] rest
    | rest => (number? false rest).map fun (n, rest) => (.number n, rest)

/-- The items of an array up to its end, behind those read before. -/
def items? : (fuel : Nat) → (before : List Json) → List Char → Option (Json × List Char)
  | 0, _, _ => none
  | fuel + 1, before, cs =>
    match value? fuel cs with
    | none => none
    | some (j, rest) =>
      match skipBlanks rest with
      | ',' :: rest => items? fuel (j :: before) rest
      | ']' :: rest => some (.array (j :: before).reverse, rest)
      | _ => none

/-- The fields of an object up to its end, behind those read before. -/
def fields? : (fuel : Nat) → (before : List (Option String × Json)) → List Char →
    Option (Json × List Char)
  | 0, _, _ => none
  | fuel + 1, before, cs =>
    match skipBlanks cs with
    | '"' :: rest =>
      match literal? .start rest with
      | none => none
      | some (name, rest) =>
        match skipBlanks rest with
        | ':' :: rest =>
          match value? fuel rest with
          | none => none
          | some (j, rest) =>
            match skipBlanks rest with
            | ',' :: rest => fields? fuel ((name, j) :: before) rest
            | '}' :: rest => some (.object ((name, j) :: before).reverse, rest)
            | _ => none
        | _ => none
    | _ => none

end

/-- Read a text that is one JSON value. Every call reads a character or is followed by one that
does, so twice the length is enough fuel. -/
def parse? (text : String) : Option Json :=
  let cs := text.toList
  match value? (2 * cs.length + 2) cs with
  | some (j, rest) => if (skipBlanks rest).isEmpty then some j else none
  | none => none

end Json

end RailAtlas
