import RailAtlas.Yaml.TokenList

/-!
# YAML documents

A document is a tree of scalars, sequences and mappings. Nodes may carry anchors, and an alias
stands for an anchored node of the same document. A text holds one document; a text without any
stands for an empty scalar.
-/

namespace RailAtlas.Yaml

/-- A scalar: its text, how it is written, and the bytes of its full tag. -/
structure Scalar where
  text : String
  style : ScalarStyle
  tag : Option (List UInt8)
deriving DecidableEq

/-- A node. Anchors are numbered; an alias holds the number it stands for. -/
inductive Node where
  | scalar (anchor : Option Nat) (s : Scalar)
  | sequence (anchor : Option Nat) (items : List Node)
  | mapping (anchor : Option Nat) (entries : List (Node × Node))
  | reference (anchor : Nat)

namespace Node

/-- A node that is not written out. -/
def empty : Node :=
  .scalar none { text := "", style := .plain, tag := none }

def anchor? : Node → Option Nat
  | scalar anchor _ => anchor
  | sequence anchor _ => anchor
  | mapping anchor _ => anchor
  | reference _ => none

mutual

/-- A node and all nodes inside it, in the order in which they start. -/
def parts : Node → List Node
  | sequence anchor items => sequence anchor items :: partsOfItems items
  | mapping anchor entries => mapping anchor entries :: partsOfEntries entries
  | scalar anchor s => [scalar anchor s]
  | reference anchor => [reference anchor]

def partsOfItems : List Node → List Node
  | [] => []
  | n :: rest => parts n ++ partsOfItems rest

def partsOfEntries : List (Node × Node) → List Node
  | [] => []
  | (key, value) :: rest => parts key ++ parts value ++ partsOfEntries rest

end

/-- What a node stands for in the document with a root. Of several nodes with the number of an
alias, the one that starts last counts. -/
def resolve (n root : Node) : Option Node :=
  match n with
  | reference anchor => (root.parts.filter fun part => part.anchor? == some anchor).getLast?
  | _ => some n

end Node

/-- The expansions of tag handles, in bytes. -/
abbrev TagHandles := List (String × List UInt8)

/-- What the full tags of the standard types start with. -/
def standardTags : List UInt8 :=
  utf8Bytes "tag:yaml.org,2002:".toList

def integerTag : List UInt8 :=
  standardTags ++ utf8Bytes "int".toList

/-- The handles that every document has. -/
def standardHandles : TagHandles :=
  [("!", utf8Bytes ['!']), ("!!", standardTags)]

/-- The full tag, if its handle is known. -/
def WrittenTag.expand? (tag : WrittenTag) (handles : TagHandles) : Option (List UInt8) :=
  if tag.handle.isEmpty then some tag.suffix
  else (handles.lookup tag.handle).map (· ++ tag.suffix)

/-- The tokens that are left, and the numbers of the anchors met so far. -/
structure Reading where
  tokens : List Token
  anchors : List (String × Nat)

namespace Reading

def next (r : Reading) : Token :=
  r.tokens.head?.getD .streamEnd

def skip (r : Reading) : Reading :=
  { r with tokens := r.tokens.tail }

/-- The number of an anchor, and the reading that knows it. It is the count of names known so far;
a name that comes again gets a new number. -/
def declare (r : Reading) : Option String → Option Nat × Reading
  | none => (none, r)
  | some name =>
    let number := r.anchors.length
    let others := r.anchors.filter fun a => a.1 != name
    (some number, { r with anchors := (name, number) :: others })

/-- The anchor and the tag in front of a node, in either order. -/
def properties (r : Reading) : Option String × Option WrittenTag × Reading :=
  match r.next, r.skip.next with
  | .anchor name, .tag tag => (some name, some tag, r.skip.skip)
  | .tag tag, .anchor name => (some name, some tag, r.skip.skip)
  | .anchor name, _ => (some name, none, r.skip)
  | .tag tag, _ => (none, some tag, r.skip)
  | _, _ => (none, none, r)

/-- The comma in front of all items but the first. -/
def separator? (r : Reading) (first : Bool) : Option Reading :=
  if first then some r else if r.next = .flowEntry then some r.skip else none

mutual

/-- A node. `block` says whether a block may start here, and `loose` whether the entries of a block
sequence may follow without being indented. -/
def node? (handles : TagHandles) :
    (fuel : Nat) → (block loose : Bool) → Reading → Option (Node × Reading)
  | 0, _, _, _ => none
  | fuel + 1, block, loose, r => do
    if let .reference name := r.next then
      return (.reference (← r.anchors.lookup name), r.skip)
    let (name, written, r) := r.properties
    let tag ← match written with
      | none => some none
      | some tag => (tag.expand? handles).map some
    let (anchor, r) := r.declare name
    let bare :=
      if name.isSome || tag.isSome then
        some (Node.scalar anchor { text := "", style := .plain, tag }, r)
      else none
    match r.next with
    | .scalar text style => return (.scalar anchor { text, style, tag }, r.skip)
    | .flowSequence =>
      let (items, r) ← flowItems? handles fuel true r.skip
      return (.sequence anchor items, r)
    | .flowMapping =>
      let (entries, r) ← flowEntries? handles fuel true r.skip
      return (.mapping anchor entries, r)
    | .blockSequence =>
      if block then
        let (items, r) ← blockItems? handles fuel r.skip
        return (.sequence anchor items, r)
      else bare
    | .blockMapping =>
      if block then
        let (entries, r) ← blockEntries? handles fuel r.skip
        return (.mapping anchor entries, r)
      else bare
    | .blockEntry =>
      if loose then
        let (items, r) ← looseItems? handles fuel r
        return (.sequence anchor items, r)
      else bare
    | _ => bare

/-- A node, or an empty one if a token follows that ends it. -/
def nodeBefore? (handles : TagHandles) (ends : List Token) :
    (fuel : Nat) → (block loose : Bool) → Reading → Option (Node × Reading)
  | 0, _, _, _ => none
  | fuel + 1, block, loose, r =>
    if ends.contains r.next then some (.empty, r) else node? handles fuel block loose r

/-- The value of an entry. It is empty if the mark of a value does not follow. -/
def valueBefore? (handles : TagHandles) (ends : List Token) :
    (fuel : Nat) → (block : Bool) → Reading → Option (Node × Reading)
  | 0, _, _ => none
  | fuel + 1, block, r =>
    if r.next = .value then nodeBefore? handles ends fuel block block r.skip
    else some (.empty, r)

def blockItems? (handles : TagHandles) : (fuel : Nat) → Reading → Option (List Node × Reading)
  | 0, _ => none
  | fuel + 1, r =>
    match r.next with
    | .blockEnd => some ([], r.skip)
    | .blockEntry => do
      let (item, r) ← nodeBefore? handles [.blockEntry, .blockEnd] fuel true false r.skip
      let (items, r) ← blockItems? handles fuel r
      return (item :: items, r)
    | _ => none

/-- The items of a block sequence that is not indented more than its key. -/
def looseItems? (handles : TagHandles) : (fuel : Nat) → Reading → Option (List Node × Reading)
  | 0, _ => none
  | fuel + 1, r =>
    match r.next with
    | .blockEntry => do
      let (item, r) ←
        nodeBefore? handles [.blockEntry, .key, .value, .blockEnd] fuel true false r.skip
      let (items, r) ← looseItems? handles fuel r
      return (item :: items, r)
    | _ => some ([], r)

def blockEntries? (handles : TagHandles) :
    (fuel : Nat) → Reading → Option (List (Node × Node) × Reading)
  | 0, _ => none
  | fuel + 1, r =>
    match r.next with
    | .blockEnd => some ([], r.skip)
    | .key => do
      let ends := [Token.key, .value, .blockEnd]
      let (key, r) ← nodeBefore? handles ends fuel true true r.skip
      let (value, r) ← valueBefore? handles ends fuel true r
      let (entries, r) ← blockEntries? handles fuel r
      return ((key, value) :: entries, r)
    | _ => none

/-- The items of a flow sequence. An item with a key is a mapping of its own; where its key is not
written out, the token behind the mark of the key is lost. -/
def flowItems? (handles : TagHandles) :
    (fuel : Nat) → (first : Bool) → Reading → Option (List Node × Reading)
  | 0, _, _ => none
  | fuel + 1, first, r =>
    if r.next = .flowSequenceEnd then some ([], r.skip)
    else do
      let r ← r.separator? first
      match r.next with
      | .flowSequenceEnd => return ([], r.skip)
      | .key =>
        let ends := [Token.flowEntry, .flowSequenceEnd]
        let r := r.skip
        let (key, r) ←
          if (Token.value :: ends).contains r.next then some (Node.empty, r.skip)
          else node? handles fuel false false r
        let (value, r) ← valueBefore? handles ends fuel false r
        let (items, r) ← flowItems? handles fuel false r
        return (.mapping none [(key, value)] :: items, r)
      | _ =>
        let (item, r) ← node? handles fuel false false r
        let (items, r) ← flowItems? handles fuel false r
        return (item :: items, r)

/-- The entries of a flow mapping. A key may stand without a value. -/
def flowEntries? (handles : TagHandles) :
    (fuel : Nat) → (first : Bool) → Reading → Option (List (Node × Node) × Reading)
  | 0, _, _ => none
  | fuel + 1, first, r =>
    if r.next = .flowMappingEnd then some ([], r.skip)
    else do
      let r ← r.separator? first
      match r.next with
      | .flowMappingEnd => return ([], r.skip)
      | .key =>
        let ends := [Token.flowEntry, .flowMappingEnd]
        let (key, r) ← nodeBefore? handles (.value :: ends) fuel false false r.skip
        let (value, r) ← valueBefore? handles ends fuel false r
        let (entries, r) ← flowEntries? handles fuel false r
        return ((key, value) :: entries, r)
      | _ =>
        let (key, r) ← node? handles fuel false false r
        let (entries, r) ← flowEntries? handles fuel false r
        return ((key, .empty) :: entries, r)

end

end Reading

/-- The directives of a document: at most one version, which has to be 1.1 or 1.2, and handles that
are all different. -/
def directives? : List Token → (versioned : Bool) → TagHandles → Option (TagHandles × List Token)
  | .version major minor :: rest, versioned, handles =>
    if versioned || major != 1 || minor != 1 && minor != 2 then none
    else directives? rest true handles
  | .tagHandle handle expansion :: rest, versioned, handles =>
    if (handles.lookup handle).isSome then none
    else directives? rest versioned (handles ++ [(handle, expansion)])
  | tokens, _, handles => some (handles ++ standardHandles, tokens)

/-- Whether a token shows that a document has no content. -/
def isContentless : Token → Bool
  | .version _ _ => true
  | .tagHandle _ _ => true
  | .documentStart => true
  | .documentEnd => true
  | .streamEnd => true
  | _ => false

namespace Node

/-- The root of the only document of some tokens. -/
def ofTokens? (tokens : List Token) : Option Node := do
  let fuel := 4 * tokens.length + 4
  let (root, rest) ←
    match tokens with
    | .streamEnd :: _ => some (empty, tokens)
    | first :: _ =>
      if isContentless first && first != .documentEnd then do
        let (handles, tokens) ← directives? tokens false []
        guard (tokens.head? = some .documentStart)
        let r : Reading := { tokens := tokens.tail, anchors := [] }
        if isContentless r.next then some (empty, r.tokens)
        else
          let (root, r) ← Reading.node? handles fuel true false r
          some (root, r.tokens)
      else do
        let (root, r) ← Reading.node? standardHandles fuel true false { tokens, anchors := [] }
        some (root, r.tokens)
    | [] => none
  guard (rest.dropWhile (· == .documentEnd) = [.streamEnd])
  return root

def parse? (text : String) : Option Node := do
  ofTokens? (← tokens? text)

end Node

end RailAtlas.Yaml
