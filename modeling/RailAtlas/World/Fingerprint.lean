import RailAtlas.World.Basic

/-!
# Fingerprints of worlds

Two worlds are compared by a 64-bit fingerprint. The clock, the seed and the registry are written
as bytes, entities in ascending order, and the bytes are mixed by multiplication with a prime.
-/

namespace RailAtlas

/-- The bytes of a word, least significant first. -/
def wordBytes (n : UInt64) : List UInt8 :=
  (List.range 8).map fun i => (n >>> (8 * UInt64.ofNat i)).toUInt8

namespace Shape

/-- A point is written as its two coordinates, an edge as its two ends. -/
def bytes : Shape → List UInt8
  | .point p => wordBytes p.x.toBits ++ wordBytes p.y.toBits
  | .edge origin target => origin.bytes ++ target.bytes
  | .placeless => []

end Shape

namespace EntityRecord

/-- Owner, tag of the kind, and shape. Tags are plain letters, one byte each. -/
def bytes (r : EntityRecord) : List UInt8 :=
  wordBytes r.owner.number ++
    (r.kind.tag.toList.map (fun c => UInt8.ofNat c.toNat) ++ r.shape.bytes)

end EntityRecord

/-- Mix one byte into a running fingerprint. -/
def mixByte (h : UInt64) (b : UInt8) : UInt64 :=
  (h ^^^ b.toUInt64) * 0x100000001b3

def fingerprint (bytes : List UInt8) : UInt64 :=
  bytes.foldl mixByte 0xcbf29ce484222325

namespace World

/-- The clock, the seed and the registry as bytes. -/
def encoding (w : World) : List UInt8 :=
  wordBytes w.tick ++ (wordBytes w.seed ++ w.entities.flatMap fun (id, r) => id.bytes ++ r.bytes)

/-- The fingerprint of the clock, the seed and the registry. -/
def stateHash (w : World) : UInt64 :=
  fingerprint w.encoding

end World

end RailAtlas
