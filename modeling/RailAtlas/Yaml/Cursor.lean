/-!
# Reading positions in a YAML text

A cursor is what is left of a text together with the place it has come to: the line, the column in
characters, and the distance from the start in bytes. Line breaks are of five kinds, and a carriage
return with a line feed counts as one.
-/

namespace RailAtlas.Yaml

/-- What is left of a text, and the place it starts at: `offset` counts the bytes before it in
UTF-8, `column` the characters before it on its line. -/
structure Cursor where
  rest : List Char
  offset : Nat
  line : Nat
  column : Nat

/-- The number of bytes that characters take in UTF-8. -/
def byteLength (cs : List Char) : Nat :=
  cs.foldr (fun c n => c.utf8Size + n) 0

def isBlank (c : Char) : Bool :=
  c == ' ' || c == '\t'

def isBreak (c : Char) : Bool :=
  c == '\n' || c == '\r' || c.toNat == 0x85 || c.toNat == 0x2028 || c.toNat == 0x2029

def isBlankOrEnd : Option Char → Bool
  | none => true
  | some c => isBlank c || isBreak c

def isBreakOrEnd : Option Char → Bool
  | none => true
  | some c => isBreak c

/-- A character of names: a letter, a digit, an underscore or a hyphen. -/
def isNameChar (c : Char) : Bool :=
  c.isAlphanum || c == '_' || c == '-'

/-- Whether a character may stand in a text at all: no control characters but tab, line feed,
carriage return and next line, no surrogates and no noncharacters of the first plane. -/
def isPrintable (c : Char) : Bool :=
  let n := c.toNat
  n == 0x09 || n == 0x0a || n == 0x0d || (decide (0x20 ≤ n) && decide (n ≤ 0x7e)) || n == 0x85 ||
    (decide (0xa0 ≤ n) && decide (n ≤ 0xd7ff)) || (decide (0xe000 ≤ n) && decide (n ≤ 0xfffd)) ||
    decide (0x10000 ≤ n)

namespace Cursor

def start (text : List Char) : Cursor :=
  { rest := text, offset := 0, line := 0, column := 0 }

def peek (c : Cursor) : Option Char :=
  c.rest.head?

def peekAt (c : Cursor) (n : Nat) : Option Char :=
  c.rest[n]?

/-- Pass over `n` characters of a line. -/
def skip (c : Cursor) (n : Nat) : Cursor :=
  { c with
    rest := c.rest.drop n
    offset := c.offset + byteLength (c.rest.take n)
    column := c.column + n }

/-- The characters of a class that come next. -/
def takeWhile (c : Cursor) (p : Char → Bool) : List Char :=
  c.rest.takeWhile p

/-- Pass over the characters of a class. No line break may belong to it. -/
def skipWhile (c : Cursor) (p : Char → Bool) : Cursor :=
  c.skip (c.takeWhile p).length

/-- Pass over a line break, if one comes next. -/
def skipBreak (c : Cursor) : Cursor :=
  match c.rest with
  | '\r' :: '\n' :: rest => { rest, offset := c.offset + 2, line := c.line + 1, column := 0 }
  | b :: rest =>
    if isBreak b then
      { rest, offset := c.offset + b.utf8Size, line := c.line + 1, column := 0 }
    else c
  | [] => c

/-- What the line break that comes next stands for in a scalar. The two Unicode separators stand
for themselves, all others for a line feed. -/
def breakText (c : Cursor) : String :=
  match c.rest with
  | b :: _ =>
    if b.toNat == 0x2028 || b.toNat == 0x2029 then String.singleton b
    else if isBreak b then "\n"
    else ""
  | [] => ""

/-- Whether three equal characters and then a blank or an end come next. -/
def atTriple (c : Cursor) (mark : Char) : Bool :=
  c.peek == some mark && c.peekAt 1 == some mark && c.peekAt 2 == some mark &&
    isBlankOrEnd (c.peekAt 3)

/-- Whether a line starts with the mark of a document's start or end. -/
def atDocumentMark (c : Cursor) : Bool :=
  c.column == 0 && (c.atTriple '-' || c.atTriple '.')

/-- The rest of a comment, if one comes next. -/
def skipComment (c : Cursor) : Cursor :=
  if c.peek == some '#' then c.skipWhile fun d => !isBreak d else c

end Cursor

end RailAtlas.Yaml
