import RailAtlas.Yaml.Scalar

/-!
# Tokens of a YAML text

Besides the marks that are written, tokens make the structure of blocks explicit: where a block
opens and closes, and where a key starts.
-/

namespace RailAtlas.Yaml

inductive ScalarStyle where
  | plain
  | singleQuoted
  | doubleQuoted
  | literal
  | folded
deriving DecidableEq

def utf8Bytes (cs : List Char) : List UInt8 :=
  cs.flatMap String.utf8EncodeChar

/-- A tag as written: a handle and what follows it. The handle of a verbatim tag is empty. What
follows is bytes, since those written with percent signs need not be the shortest form of a
character. -/
structure WrittenTag where
  handle : String
  suffix : List UInt8
deriving DecidableEq

inductive Token where
  | streamEnd
  | version (major minor : Nat)
  | tagHandle (handle : String) (expansion : List UInt8)
  | documentStart
  | documentEnd
  | blockSequence
  | blockMapping
  | blockEnd
  | flowSequence
  | flowSequenceEnd
  | flowMapping
  | flowMappingEnd
  | blockEntry
  | flowEntry
  | key
  | value
  | reference (name : String)
  | anchor (name : String)
  | tag (tag : WrittenTag)
  | scalar (text : String) (style : ScalarStyle)
deriving DecidableEq

/-- The name behind the mark of an anchor or an alias, and the cursor behind it. -/
def anchorName? (cur : Cursor) : Option (String × Cursor) :=
  let name := cur.takeWhile isNameChar
  let after := cur.skip name.length
  let ends := isBlankOrEnd after.peek || after.peek.any fun c => "?:,]\x7d%@\x60".contains c
  if name.isEmpty || !ends then none else some (String.ofList name, after)

/-- Whether a character may stand in the text of a tag. Commas and square brackets may do so only
where the end of the tag is marked. -/
def isTagChar (delimited : Bool) (c : Char) : Bool :=
  isNameChar c || ";/?:@&=+$.%!~*'()".contains c || delimited && ",[]".contains c

/-- The byte that two hexadecimal digits behind a percent sign spell. -/
def percentByte? : List Char → Option (UInt8 × List Char)
  | '%' :: a :: b :: rest => do
    let a ← hexValue? a
    let b ← hexValue? b
    return (UInt8.ofNat (16 * a + b), rest)
  | _ => none

/-- How many bytes follow a first byte of UTF-8. -/
def trailCount? (b : UInt8) : Option Nat :=
  if b < 0x80 then some 0
  else if b < 0xc0 then none
  else if b < 0xe0 then some 1
  else if b < 0xf0 then some 2
  else if b < 0xf8 then some 3
  else none

/-- Read further bytes of one character. -/
def trailBytes? : (count : Nat) → List Char → Option (List UInt8 × List Char)
  | 0, cs => some ([], cs)
  | count + 1, cs => do
    let (b, rest) ← percentByte? cs
    guard (0x80 ≤ b ∧ b < 0xc0)
    let (bytes, rest) ← trailBytes? count rest
    return (b :: bytes, rest)

/-- The bytes of one character written with percent signs. They have to be as many as the first one
announces, but a form that is longer than needed is kept as it is. -/
def percentBytes? (cs : List Char) : Option (List UInt8 × List Char) := do
  let (b, rest) ← percentByte? cs
  let (bytes, rest) ← trailBytes? (← trailCount? b) rest
  return (b :: bytes, rest)

/-- The text of a tag or of its expansion: its bytes and what follows. -/
def tagText? (delimited : Bool) :
    (fuel : Nat) → Cursor → (bytes : Array UInt8) → Option (Array UInt8 × Cursor)
  | 0, _, _ => none
  | fuel + 1, cur, bytes =>
    match cur.peek with
    | none => some (bytes, cur)
    | some c =>
      if c == '%' then
        match percentBytes? cur.rest with
        | none => none
        | some (written, rest) =>
          tagText? delimited fuel (cur.skip (cur.rest.length - rest.length)) (bytes ++ written)
      else if isTagChar delimited c then
        tagText? delimited fuel (cur.skip 1) (bytes ++ utf8Bytes [c])
      else some (bytes, cur)

/-- What a tag's text counts for: all of it up to a zero byte, which can only be written with a
percent sign. -/
def untilZero (bytes : List UInt8) : List UInt8 :=
  bytes.takeWhile (· != 0)

def tagTextFrom? (delimited : Bool) (cur : Cursor) : Option (List UInt8 × Cursor) :=
  (tagText? delimited (cur.rest.length + 1) cur #[]).map fun (bytes, cur) =>
    (untilZero bytes.toList, cur)

def someTagText? (delimited : Bool) (cur : Cursor) : Option (List UInt8 × Cursor) := do
  let (bytes, after) ← tagTextFrom? delimited cur
  if cur.offset < after.offset then some (bytes, after) else none

/-- A handle: an exclamation mark, characters of names, and perhaps another exclamation mark. -/
def handle? (cur : Cursor) : Option (String × Cursor) := do
  guard (cur.peek = some '!')
  let name := (cur.skip 1).takeWhile isNameChar
  let after := cur.skip (name.length + 1)
  if after.peek = some '!' then
    return (String.ofList ('!' :: name ++ ['!']), after.skip 1)
  else return (String.ofList ('!' :: name), after)

def isClosedHandle (handle : String) : Bool :=
  1 < handle.length && handle.toList.getLast? == some '!'

/-- A tag, with the cursor at its exclamation mark. -/
def tag? (flow : Bool) (cur : Cursor) : Option (WrittenTag × Cursor) := do
  let (tag, cur) ←
    if cur.peekAt 1 = some '<' then do
      let (suffix, cur) ← someTagText? true (cur.skip 2)
      guard (cur.peek = some '>')
      pure (WrittenTag.mk "" suffix, cur.skip 1)
    else do
      let (handle, cur) ← handle? cur
      if isClosedHandle handle then do
        let (suffix, cur) ← someTagText? false cur
        pure (WrittenTag.mk handle suffix, cur)
      else
        let (bytes, cur) ← tagTextFrom? false cur
        let suffix := utf8Bytes (handle.toList.drop 1) ++ bytes
        if suffix.isEmpty then pure (WrittenTag.mk "" (utf8Bytes ['!']), cur)
        else pure (WrittenTag.mk "!" suffix, cur)
  guard (isBlankOrEnd cur.peek || flow && cur.peek == some ',')
  return (tag, cur)

/-- A part of a version number. -/
def versionNumber? (cur : Cursor) : Option (Nat × Cursor) :=
  let digits := cur.takeWhile Char.isDigit
  if digits.isEmpty || 9 < digits.length then none
  else some (decimalValue 0 digits, cur.skip digits.length)

/-- A directive behind its percent sign. Nothing but a comment may follow on its line. -/
def directive? (cur : Cursor) : Option (Token × Cursor) := do
  let name := cur.takeWhile isNameChar
  let cur := cur.skip name.length
  guard (isBlankOrEnd cur.peek)
  let cur := cur.skipWhile isBlank
  let (token, cur) ←
    if name = "YAML".toList then do
      let (major, cur) ← versionNumber? cur
      guard (cur.peek = some '.')
      let (minor, cur) ← versionNumber? (cur.skip 1)
      pure (Token.version major minor, cur)
    else if name = "TAG".toList then do
      let (handle, cur) ← handle? cur
      guard (handle = "!" || isClosedHandle handle)
      guard (cur.peek.any isBlank)
      let (expansion, cur) ← someTagText? true (cur.skipWhile isBlank)
      guard (isBlankOrEnd cur.peek)
      pure (Token.tagHandle handle expansion, cur)
    else none
  let cur := (cur.skipWhile isBlank).skipComment
  guard (isBreakOrEnd cur.peek)
  return (token, cur.skipBreak)

end RailAtlas.Yaml
