import RailAtlas.Decimal.Numeral
import RailAtlas.Yaml.Cursor

/-!
# Scalars of a YAML text

Plain, quoted and block scalars, each read from a cursor to the text it denotes. Line breaks inside
plain and quoted scalars are folded: a single one becomes a space, and of several the first one is
dropped.
-/

namespace RailAtlas.Yaml

/-- Text that is being folded. `white` holds blanks that count only if more text follows on the
line; after a line break, `firstBreak` and `moreBreaks` hold the breaks instead. -/
structure Folding where
  text : String
  white : String
  firstBreak : String
  moreBreaks : String
  broken : Bool

namespace Folding

def start : Folding :=
  { text := "", white := "", firstBreak := "", moreBreaks := "", broken := false }

def blank (f : Folding) (c : Char) : Folding :=
  if f.broken then f else { f with white := f.white.push c }

def lineBreak (f : Folding) (b : String) : Folding :=
  if f.broken then { f with moreBreaks := f.moreBreaks ++ b }
  else { f with white := "", firstBreak := b, broken := true }

/-- An escaped line break follows: it stands for nothing, but the next line is a new one. -/
def joinedBreak (f : Folding) : Folding :=
  { f with firstBreak := "", broken := true }

def isPending (f : Folding) : Bool :=
  f.broken || !f.white.isEmpty

/-- Settle what waits, because text follows. -/
def settle (f : Folding) : Folding :=
  let gap :=
    if f.broken then
      if f.firstBreak == "\n" then (if f.moreBreaks.isEmpty then " " else f.moreBreaks)
      else f.firstBreak ++ f.moreBreaks
    else f.white
  { start with text := f.text ++ gap }

def push (f : Folding) (c : Char) : Folding :=
  { f.settle with text := f.settle.text.push c }

end Folding

/-- The character that a one-letter escape stands for. -/
def escapedChar? : Char → Option Char
  | '0' => some (Char.ofNat 0x00)
  | 'a' => some (Char.ofNat 0x07)
  | 'b' => some (Char.ofNat 0x08)
  | 't' => some '\t'
  | '\t' => some '\t'
  | 'n' => some '\n'
  | 'v' => some (Char.ofNat 0x0b)
  | 'f' => some (Char.ofNat 0x0c)
  | 'r' => some '\r'
  | 'e' => some (Char.ofNat 0x1b)
  | ' ' => some ' '
  | '"' => some '"'
  | '/' => some '/'
  | '\\' => some '\\'
  | 'N' => some (Char.ofNat 0x85)
  | '_' => some (Char.ofNat 0xa0)
  | 'L' => some (Char.ofNat 0x2028)
  | 'P' => some (Char.ofNat 0x2029)
  | _ => none

/-- How many hexadecimal digits follow a numeric escape. -/
def escapeWidth? : Char → Option Nat
  | 'x' => some 2
  | 'u' => some 4
  | 'U' => some 8
  | _ => none

/-- The character with a given code, which must not be a surrogate. -/
def charOfCode? (n : Nat) : Option Char :=
  if h : n.isValidChar then some (Char.ofNatAux n h) else none

/-- The escape behind a backslash, and the number of characters it takes. -/
def escape? (cs : List Char) : Option (Char × Nat) :=
  match cs with
  | [] => none
  | c :: rest =>
    match escapeWidth? c with
    | none => (escapedChar? c).map fun d => (d, 1)
    | some width => do
      let digits := rest.take width
      guard (digits.length = width)
      let n ← digits.foldlM (fun n d => (hexValue? d).map (16 * n + ·)) 0
      return (← charOfCode? n, width + 1)

/-- A quoted scalar behind its opening quote: its text and the cursor behind the closing quote. In
single quotes a doubled quote is the only escape. -/
def quoted? (single : Bool) : (fuel : Nat) → Cursor → Folding → Option (String × Cursor)
  | 0, _, _ => none
  | fuel + 1, cur, f =>
    if cur.atDocumentMark then none
    else
      match cur.peek with
      | none => none
      | some c =>
        if isBlank c then quoted? single fuel (cur.skip 1) (f.blank c)
        else if isBreak c then quoted? single fuel cur.skipBreak (f.lineBreak cur.breakText)
        else if single then
          if c == '\'' then
            if cur.peekAt 1 == some '\'' then quoted? single fuel (cur.skip 2) (f.push '\'')
            else some (f.settle.text, cur.skip 1)
          else quoted? single fuel (cur.skip 1) (f.push c)
        else if c == '"' then some (f.settle.text, cur.skip 1)
        else if c == '\\' then
          match cur.peekAt 1 with
          | none => none
          | some d =>
            if isBreak d then quoted? single fuel (cur.skip 1).skipBreak f.settle.joinedBreak
            else
              match escape? (cur.rest.drop 1) with
              | none => none
              | some (e, n) => quoted? single fuel (cur.skip (n + 1)) (f.push e)
        else quoted? single fuel (cur.skip 1) (f.push c)

/-- Whether a character is an indicator of flow collections. -/
def isFlowIndicator (c : Char) : Bool :=
  c == ',' || c == '[' || c == ']' || c == '{' || c == '}'

/-- A plain scalar: its text, the cursor where reading stopped, and whether that is on a later line.
`indent` is the least column of continuation lines in block context. -/
def plain? (flow : Bool) (indent : Int) :
    (fuel : Nat) → Cursor → Folding → Option (String × Cursor × Bool)
  | 0, _, _ => none
  | fuel + 1, cur, f =>
    let stop := some (f.text, cur, f.broken)
    match cur.peek with
    | none => stop
    | some c =>
      if isBlank c then
        if f.broken && decide ((cur.column : Int) < indent) && c == '\t' then none
        else plain? flow indent fuel (cur.skip 1) (f.blank c)
      else if isBreak c then plain? flow indent fuel cur.skipBreak (f.lineBreak cur.breakText)
      else if f.isPending &&
          (!flow && decide ((cur.column : Int) < indent) || cur.atDocumentMark || c == '#') then
        stop
      else if flow && c == ':' && (cur.peekAt 1).any fun d => isFlowIndicator d || d == '?' then
        none
      else if c == ':' && isBlankOrEnd (cur.peekAt 1) || flow && isFlowIndicator c then stop
      else plain? flow indent fuel (cur.skip 1) (f.push c)

/-- What becomes of the line breaks at the end of a block scalar. -/
inductive Chomping where
  | strip
  | clip
  | keep
deriving DecidableEq

/-- The header of a block scalar: chomping and an explicit indentation, in either order. -/
def blockHeader? (cur : Cursor) : Option (Chomping × Nat × Cursor) :=
  let chomping? (c : Cursor) : Option Chomping :=
    if c.peek == some '+' then some .keep else if c.peek == some '-' then some .strip else none
  let width? (c : Cursor) : Option Nat := c.peek.bind digitValue?
  match chomping? cur, width? cur with
  | some chomping, _ =>
    let cur := cur.skip 1
    match width? cur with
    | none => some (chomping, 0, cur)
    | some 0 => none
    | some n => some (chomping, n, cur.skip 1)
  | none, some 0 => none
  | none, some n =>
    let cur := cur.skip 1
    match chomping? cur with
    | none => some (.clip, n, cur)
    | some chomping => some (chomping, n, cur.skip 1)
  | none, none => some (.clip, 0, cur)

/-- Blank lines and indentation in front of a line of a block scalar: the breaks passed over, the
greatest column seen, and the cursor. An `indent` of zero is not known yet. -/
def blockBreaks? (indent : Nat) :
    (fuel : Nat) → Cursor → (breaks : String) → (widest : Nat) → Option (String × Nat × Cursor)
  | 0, _, _, _ => none
  | fuel + 1, cur, breaks, widest =>
    let spaces := (cur.takeWhile (· == ' ')).length
    let cur := cur.skip (if indent = 0 then spaces else min spaces (indent - cur.column))
    let widest := max widest cur.column
    match cur.peek with
    | none => some (breaks, widest, cur)
    | some c =>
      if (indent = 0 ∨ cur.column < indent) ∧ c = '\t' then none
      else if isBreak c then blockBreaks? indent fuel cur.skipBreak (breaks ++ cur.breakText) widest
      else some (breaks, widest, cur)

/-- A block scalar between two of its lines. -/
structure BlockText where
  text : String
  leadingBreak : String
  trailingBreaks : String
  leadingBlank : Bool

namespace BlockText

/-- The text when a line follows that starts with a blank or not. In folded style a single break
between two lines that do not start with a blank becomes a space. -/
def beforeLine (b : BlockText) (literal blankFirst : Bool) : String :=
  if !literal && b.leadingBreak == "\n" && !b.leadingBlank && !blankFirst then
    b.text ++ (if b.trailingBreaks.isEmpty then " " else b.trailingBreaks)
  else b.text ++ b.leadingBreak ++ b.trailingBreaks

def finish (b : BlockText) (chomping : Chomping) : String :=
  match chomping with
  | .strip => b.text
  | .clip => b.text ++ b.leadingBreak
  | .keep => b.text ++ b.leadingBreak ++ b.trailingBreaks

end BlockText

def blockLines? (literal : Bool) (indent : Nat) :
    (fuel : Nat) → Cursor → BlockText → Option (BlockText × Cursor)
  | 0, _, _ => none
  | fuel + 1, cur, b =>
    if cur.column ≠ indent ∨ cur.rest.isEmpty then some (b, cur)
    else
      let blankFirst := cur.peek.any isBlank
      let line := cur.takeWhile fun c => !isBreak c
      let text := b.beforeLine literal blankFirst ++ String.ofList line
      let cur := cur.skip line.length
      let leadingBreak := cur.breakText
      match blockBreaks? indent fuel cur.skipBreak "" 0 with
      | none => none
      | some (trailingBreaks, _, cur) =>
        blockLines? literal indent fuel cur
          { text, leadingBreak, trailingBreaks, leadingBlank := blankFirst }

/-- A block scalar behind its indicator, inside a block with the given indentation. -/
def block? (literal : Bool) (parent : Int) (fuel : Nat) (cur : Cursor) :
    Option (String × Cursor) := do
  let (chomping, width, cur) ← blockHeader? cur
  let cur := (cur.skipWhile isBlank).skipComment
  guard (isBreakOrEnd cur.peek)
  let fixed := if width = 0 then 0 else (max parent 0).toNat + width
  let (breaks, widest, cur) ← blockBreaks? fixed fuel cur.skipBreak "" 0
  let indent := if fixed = 0 then max widest (max (parent + 1).toNat 1) else fixed
  let (b, cur) ← blockLines? literal indent fuel cur
    { text := "", leadingBreak := "", trailingBreaks := breaks, leadingBlank := false }
  return (b.finish chomping, cur)

end RailAtlas.Yaml
