import RailAtlas.Ident.Basic

/-!
# Reproducible draws

`splitMix` turns a 64-bit state into a well mixed word; it drives the seed of the world, the
placing of rail nodes and the drawing of fresh entity identifiers.

Where fresh identifiers come from is left open: a stream may give any of them in any order, also
one that it has given before. The program draws from a stream that a seed determines.
-/

namespace RailAtlas

/-- One step of the generator: advance by the odd constant, then mix by multiplications and
shifts. -/
def splitMix (state : UInt64) : UInt64 :=
  let z := state + 0x9e3779b97f4a7c15
  let z := (z ^^^ (z >>> 30)) * 0xbf58476d1ce4e5b9
  let z := (z ^^^ (z >>> 27)) * 0x94d049bb133111eb
  z ^^^ (z >>> 31)

/-- A source of entity identifiers: what each draw gives, and how often it has been drawn from. -/
structure IdStream where
  given : Nat → EntityId
  drawn : Nat

namespace IdStream

/-- The identifier made of two words: the version digit is four, and the variant bits are one
and zero. -/
def stamp (high low : UInt64) : EntityId :=
  ⟨BitVec.append
    ((high.toBitVec &&& ~~~0xf000#64) ||| 0x4000#64)
    ((low.toBitVec &&& 0x3fffffffffffffff#64) ||| 0x8000000000000000#64)⟩

/-- The stream that a seed determines: each draw mixes the next two states. -/
def start (seed : UInt64) : IdStream where
  given n :=
    let state := seed + 2 * UInt64.ofNat n
    stamp (splitMix state) (splitMix (state + 1))
  drawn := 0

def draw (s : IdStream) : EntityId × IdStream :=
  (s.given s.drawn, { s with drawn := s.drawn + 1 })

/-- Draw `n` identifiers, first drawn first. -/
def take : (n : Nat) → IdStream → List EntityId × IdStream
  | 0, s => ([], s)
  | n + 1, s =>
    let (id, s) := s.draw
    let (ids, s) := take n s
    (id :: ids, s)

end IdStream

end RailAtlas
