import RailAtlas.Yaml.Token

/-!
# From text to tokens

Blocks are opened and closed by indentation. Whether a scalar is a key shows only when a colon
follows it, so the start of a possible key is remembered, and the tokens that announce a key and its
block are put in front of it later. Such a key has to end on its own line, within 1024 bytes.
-/

namespace RailAtlas.Yaml

/-- The start of what may turn out to be a key. `position` counts the tokens in front of it. A
required key has to turn out to be one. -/
structure PossibleKey where
  required : Bool
  position : Nat
  offset : Nat
  line : Nat
  column : Nat

/-- How far behind the start of a key its colon may be, in bytes. -/
def keyLimit : Nat := 1024

/-- A text that has been split up to a cursor. Tokens are held newest first. `blocks` holds the
columns of the open blocks and `keys` a place for a possible key in every open flow collection and
around them, both innermost first. `keyAllowed` says whether a key may start at the cursor. -/
structure Splitting where
  cursor : Cursor
  tokens : List Token
  blocks : List Nat
  keys : List (Option PossibleKey)
  keyAllowed : Bool

namespace Splitting

def start (text : List Char) : Splitting :=
  { cursor := .start text, tokens := [], blocks := [], keys := [none], keyAllowed := true }

/-- Whether the cursor is inside a flow collection. -/
def inFlow (s : Splitting) : Bool :=
  1 < s.keys.length

/-- The column of the innermost block, or `-1` outside all blocks. -/
def indent (s : Splitting) : Int :=
  match s.blocks with
  | [] => -1
  | b :: _ => b

def emit (s : Splitting) (t : Token) (cursor : Cursor) : Splitting :=
  { s with tokens := t :: s.tokens, cursor }

/-- Put a token in front of those that came after a position. -/
def insertAt (s : Splitting) (position : Nat) (t : Token) : Splitting :=
  { s with tokens := s.tokens.insertIdx (s.tokens.length - position) t }

/-- Say whether a key may start at the cursor. -/
def allowKey (s : Splitting) (allowed : Bool) : Splitting :=
  { s with keyAllowed := allowed }

/-- Pass over blanks, comments and line breaks, and over a byte order mark that starts a line.
Outside flow collections a key may start on a new line, and tabs count as blanks only where no key
may start. -/
def skipGap : (fuel : Nat) → Splitting → Splitting
  | 0, s => s
  | fuel + 1, s =>
    let cur := s.cursor
    let cur := if cur.column = 0 ∧ cur.peek = some (Char.ofNat 0xfeff) then cur.skip 1 else cur
    let tabs := s.inFlow || !s.keyAllowed
    let cur := (cur.skipWhile fun c => c == ' ' || tabs && c == '\t').skipComment
    if cur.peek.any isBreak then
      skipGap fuel
        { s with cursor := cur.skipBreak, keyAllowed := s.keyAllowed || !s.inFlow }
    else { s with cursor := cur }

/-- Give up possible keys that have become too long or are not on the cursor's line. -/
def expireKeys? (s : Splitting) : Option Splitting := do
  let isPast (k : PossibleKey) : Bool :=
    k.line < s.cursor.line || k.offset + keyLimit < s.cursor.offset
  guard !(s.keys.any fun key => key.any fun k => isPast k && k.required)
  return { s with keys := s.keys.map fun key => key.filter fun k => !isPast k }

def dropKey? (s : Splitting) : Option Splitting :=
  match s.keys with
  | some k :: outer => if k.required then none else some { s with keys := none :: outer }
  | _ => some s

/-- The next token may start a key, if a key is allowed here. It is required to be one where the
innermost block goes on. -/
def offerKey? (s : Splitting) : Option Splitting :=
  if s.keyAllowed then do
    let cur := s.cursor
    let key : PossibleKey :=
      { required := !s.inFlow && s.indent == cur.column
        position := s.tokens.length
        offset := cur.offset, line := cur.line, column := cur.column }
    let s ← s.dropKey?
    return { s with keys := some key :: s.keys.tail }
  else some s

/-- Close the blocks to the right of a column. -/
def closeBlocks (s : Splitting) (column : Int) : Splitting :=
  if s.inFlow then s
  else
    let closed := s.blocks.takeWhile fun (b : Nat) => decide (column < (b : Int))
    { s with
      tokens := closed.map (fun _ => Token.blockEnd) ++ s.tokens
      blocks := s.blocks.drop closed.length }

/-- Open a block at a column in front of the tokens after a position, unless it is open. -/
def openBlock (s : Splitting) (column position : Nat) (t : Token) : Splitting :=
  if s.inFlow || decide ((column : Int) ≤ s.indent) then s
  else { s.insertAt position t with blocks := column :: s.blocks }

/-- Open a block at the cursor. One may be opened only where a key may start. -/
def openHere? (s : Splitting) (t : Token) : Option Splitting :=
  if s.inFlow then some s
  else if s.keyAllowed then some (s.openBlock s.cursor.column s.tokens.length t)
  else none

/-- Close everything in front of a directive, the mark of a document or the end. -/
def endDocument? (s : Splitting) : Option Splitting := do
  let s ← (s.closeBlocks (-1)).dropKey?
  return s.allowKey false

def openFlow? (s : Splitting) (t : Token) : Option Splitting := do
  let s ← s.offerKey?
  return { (s.emit t (s.cursor.skip 1)).allowKey true with keys := none :: s.keys }

def closeFlow? (s : Splitting) (t : Token) : Option Splitting := do
  let s ← s.dropKey?
  let keys := if s.inFlow then s.keys.tail else s.keys
  return { (s.emit t (s.cursor.skip 1)).allowKey false with keys }

def comma? (s : Splitting) : Option Splitting := do
  let s ← s.dropKey?
  return (s.emit .flowEntry (s.cursor.skip 1)).allowKey true

def entry? (s : Splitting) : Option Splitting := do
  let s ← s.openHere? .blockSequence
  let s ← s.dropKey?
  return (s.emit .blockEntry (s.cursor.skip 1)).allowKey true

def explicitKey? (s : Splitting) : Option Splitting := do
  let s ← s.openHere? .blockMapping
  let s ← s.dropKey?
  return (s.emit .key (s.cursor.skip 1)).allowKey !s.inFlow

/-- The mark of a value. If a possible key waits, it is one, and its block starts there. -/
def value? (s : Splitting) : Option Splitting :=
  match s.keys with
  | some k :: outer =>
    let s := (s.insertAt k.position .key).openBlock k.column k.position .blockMapping
    some (({ s with keys := none :: outer }.emit .value (s.cursor.skip 1)).allowKey false)
  | _ => do
    let s ← s.openHere? .blockMapping
    return (s.emit .value (s.cursor.skip 1)).allowKey !s.inFlow

def documentMark? (s : Splitting) (t : Token) : Option Splitting := do
  let s ← s.endDocument?
  return s.emit t (s.cursor.skip 3)

def directiveLine? (s : Splitting) : Option Splitting := do
  let s ← s.endDocument?
  let (t, cur) ← directive? (s.cursor.skip 1)
  return s.emit t cur

def finish? (s : Splitting) : Option Splitting := do
  let s ← s.endDocument?
  return s.emit .streamEnd s.cursor

/-- A token that may start a key, with the cursor behind it. -/
def keyPart? (s : Splitting) (read : Cursor → Option (Token × Cursor)) : Option Splitting := do
  let s ← s.offerKey?
  let (t, cur) ← read s.cursor
  return (s.emit t cur).allowKey false

def blockScalar? (s : Splitting) (style : ScalarStyle) : Option Splitting := do
  let s ← s.dropKey?
  let cur := s.cursor
  let (text, cur) ← block? (style == .literal) s.indent (cur.rest.length + 1) (cur.skip 1)
  return (s.emit (.scalar text style) cur).allowKey true

/-- A plain scalar. If it ends on a later line, a key may start there. -/
def plainScalar? (s : Splitting) : Option Splitting := do
  let s ← s.offerKey?
  let cur := s.cursor
  let (text, cur, broken) ← plain? s.inFlow (s.indent + 1) (cur.rest.length + 1) cur .start
  return (s.emit (.scalar text .plain) cur).allowKey broken

def quotedToken? (style : ScalarStyle) (cur : Cursor) : Option (Token × Cursor) := do
  let (text, cur) ←
    quoted? (style == .singleQuoted) (cur.rest.length + 1) (cur.skip 1) .start
  return (.scalar text style, cur)

/-- Whether a plain scalar may start with a character, given the one behind it. -/
def startsPlain (flow : Bool) (c : Char) (next : Option Char) : Bool :=
  !(isBlank c || isBreak c || "-?:,[]\x7b\x7d#&*!|>'\"%@\x60".contains c) ||
    c == '-' && !next.any isBlank ||
    !flow && (c == '?' || c == ':') && !isBlankOrEnd next

/-- The next token, which starts with the given character. -/
def tokenAt? (s : Splitting) (c : Char) : Option Splitting :=
  let cur := s.cursor
  let ends := isBlankOrEnd (cur.peekAt 1)
  if cur.column == 0 && c == '%' then s.directiveLine?
  else if cur.column == 0 && cur.atTriple '-' then s.documentMark? .documentStart
  else if cur.column == 0 && cur.atTriple '.' then s.documentMark? .documentEnd
  else if c == '[' then s.openFlow? .flowSequence
  else if c == '\x7b' then s.openFlow? .flowMapping
  else if c == ']' then s.closeFlow? .flowSequenceEnd
  else if c == '\x7d' then s.closeFlow? .flowMappingEnd
  else if c == ',' then s.comma?
  else if c == '-' && ends then s.entry?
  else if c == '?' && (s.inFlow || ends) then s.explicitKey?
  else if c == ':' && (s.inFlow || ends) then s.value?
  else if c == '*' then s.keyPart? fun cur => do
    let (name, cur) ← anchorName? (cur.skip 1)
    return (.reference name, cur)
  else if c == '&' then s.keyPart? fun cur => do
    let (name, cur) ← anchorName? (cur.skip 1)
    return (.anchor name, cur)
  else if c == '!' then s.keyPart? fun cur => do
    let (tag, cur) ← tag? s.inFlow cur
    return (.tag tag, cur)
  else if !s.inFlow && c == '|' then s.blockScalar? .literal
  else if !s.inFlow && c == '>' then s.blockScalar? .folded
  else if c == '\'' then s.keyPart? (quotedToken? .singleQuoted)
  else if c == '"' then s.keyPart? (quotedToken? .doubleQuoted)
  else if startsPlain s.inFlow c (cur.peekAt 1) then s.plainScalar?
  else none

/-- Split the rest of the text. -/
def run? : (fuel : Nat) → Splitting → Option Splitting
  | 0, _ => none
  | fuel + 1, s => do
    let s ← (s.skipGap (s.cursor.rest.length + 1)).expireKeys?
    let s := s.closeBlocks s.cursor.column
    match s.cursor.peek with
    | none => s.finish?
    | some c =>
      let s ← s.tokenAt? c
      run? fuel s

end Splitting

def tokens? (text : String) : Option (List Token) := do
  let cs := text.toList
  guard (cs.all isPrintable)
  let s ← Splitting.run? (cs.length + 1) (.start cs)
  return s.tokens.reverse

end RailAtlas.Yaml
