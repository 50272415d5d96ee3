import RailAtlas.Index.Chunk

/-!
# Clusters

A cluster covers one square of the quad tree and holds one chunk for each owner who has entities
there.
-/

namespace RailAtlas

/-- A labelled square with the chunks of its owners. -/
structure Cluster where
  id : ClusterId
  square : Square
  buckets : Std.ExtTreeMap OwnerId Chunk

namespace Cluster

def empty (id : ClusterId) (square : Square) : Cluster :=
  { id, square, buckets := ∅ }

def bucket? (c : Cluster) (owner : OwnerId) : Option Chunk :=
  c.buckets[owner]?

/-- The chunks, in ascending order of their owners. -/
def bucketList (c : Cluster) : List (OwnerId × Chunk) :=
  c.buckets.toList

def hasData (c : Cluster) : Bool :=
  !c.buckets.isEmpty

def holds (c : Cluster) (owner : OwnerId) (entity : EntityId) : Bool :=
  match c.bucket? owner with
  | some chunk => chunk.has entity
  | none => false

/-- Put a chunk in the place of its owner's. -/
def setBucket (c : Cluster) (chunk : Chunk) : Cluster :=
  { c with buckets := c.buckets.insert chunk.owner chunk }

/-- Take an entity out of the chunk of an owner. A chunk that is left without members goes. -/
def discard (c : Cluster) (owner : OwnerId) (entity : EntityId) : Cluster :=
  match c.bucket? owner with
  | none => c
  | some chunk =>
    let rest := chunk.erase entity
    if rest.isEmpty then { c with buckets := c.buckets.erase owner }
    else { c with buckets := c.buckets.insert owner rest }

def memberCount (c : Cluster) : Nat :=
  c.bucketList.foldr (fun b n => b.2.size + n) 0

/-- Label, scale, owners and center on one line. -/
def render (c : Cluster) : String :=
  let owners := ",".intercalate (c.bucketList.map fun (owner, _) => owner.render)
  s!"{c.id.render}(s{c.square.scale})[{owners}]{c.square.center.render}"

end Cluster

end RailAtlas
