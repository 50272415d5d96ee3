import RailAtlas.Decimal.Text
import RailAtlas.Json.Value

/-!
# Writing JSON

Two layouts: a compact one without any blanks, and an indented one with a line for every item. Empty
arrays and objects stay on one line in both.
-/

namespace RailAtlas

namespace Json

/-- A character inside a string literal. Control characters, the quote and the backslash are
escaped, everything else stands for itself. -/
def escapeChar (c : Char) : List Char :=
  if c = '"' then ['\\', '"']
  else if c = '\\' then ['\\', '\\']
  else if c = '\n' then ['\\', 'n']
  else if c = '\r' then ['\\', 'r']
  else if c = '\t' then ['\\', 't']
  else if c.toNat = 8 then ['\\', 'b']
  else if c.toNat = 12 then ['\\', 'f']
  else if c.toNat < 32 then
    ['\\', 'u', '0', '0', Nat.digitChar (c.toNat / 16), Nat.digitChar (c.toNat % 16)]
  else [c]

def quote (s : String) : String :=
  String.ofList ('"' :: (s.toList.flatMap escapeChar ++ ['"']))

/-- A number: whole numbers as their digits, others in the interchange layout. -/
def renderNumber (n : JsonNumber) : String :=
  (if n.numeral.negative then "-" else "") ++
    if n.whole then toString n.numeral.digits
    else FloatLayout.interchange.decimal
      { digits := n.numeral.digits, exponent := n.numeral.exponent }

/-- The literal of a value that has no parts. -/
def atom : Json → String
  | null => "null"
  | bool true => "true"
  | bool false => "false"
  | number n => renderNumber n
  | string s => quote (s.getD "")
  | array _ => "[]"
  | object _ => "\x7b\x7d"

mutual

/-- Write a value without blanks behind a text. -/
def compactOnto (acc : String) : Json → String
  | array items => compactItems (acc ++ "[") items ++ "]"
  | object fields => compactFields (acc ++ "\x7b") fields ++ "\x7d"
  | j => acc ++ j.atom

/-- Write items behind a text, separated by commas. -/
def compactItems (acc : String) : List Json → String
  | [] => acc
  | [j] => compactOnto acc j
  | j :: rest => compactItems (compactOnto acc j ++ ",") rest

/-- Write fields behind a text, separated by commas. -/
def compactFields (acc : String) : List (Option String × Json) → String
  | [] => acc
  | [(name, j)] => compactOnto (acc ++ quote (name.getD "") ++ ":") j
  | (name, j) :: rest =>
    compactFields (compactOnto (acc ++ quote (name.getD "") ++ ":") j ++ ",") rest

end

def compact (j : Json) : String :=
  compactOnto "" j

def onFirstLine (lead : String) : List String → List String
  | [] => [lead]
  | line :: rest => (lead ++ line) :: rest

def onLastLine (tail : String) : List String → List String
  | [] => []
  | [line] => [line ++ tail]
  | line :: rest => line :: onLastLine tail rest

/-- Lines one level further in. -/
def indent (lines : List String) : List String :=
  lines.map ("  " ++ ·)

mutual

/-- A value with a line for every item, two blanks further in for every level. -/
def pretty : Json → List String
  | array [] => ["[]"]
  | array items => "[" :: indent (prettyItems items) ++ ["]"]
  | object [] => ["\x7b\x7d"]
  | object fields => "\x7b" :: indent (prettyFields fields) ++ ["\x7d"]
  | j => [j.atom]

/-- The lines of items, a comma behind all but the last. -/
def prettyItems : List Json → List String
  | [] => []
  | [j] => pretty j
  | j :: rest => onLastLine "," (pretty j) ++ prettyItems rest

/-- The lines of fields, a comma behind all but the last. -/
def prettyFields : List (Option String × Json) → List String
  | [] => []
  | [(name, j)] => onFirstLine (quote (name.getD "") ++ ": ") (pretty j)
  | (name, j) :: rest =>
    onLastLine "," (onFirstLine (quote (name.getD "") ++ ": ") (pretty j)) ++ prettyFields rest

end

end Json

end RailAtlas
