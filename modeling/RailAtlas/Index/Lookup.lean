import RailAtlas.Index.Tree

/-!
# Looking things up in the tree

Which clusters and chunks hold an entity, which cluster of a given scale covers a point, how the
clusters hang together, and what a viewport shows.
-/

namespace RailAtlas

/-- What a viewport asks for: the square of side `2 ^ scale` around a center, shown with clusters
at least `span` scales finer than that. -/
structure Viewport where
  center : Point
  scale : Float
  span : Float
deriving DecidableEq

/-- A cluster with its place in the tree. -/
structure ClusterEntry where
  cluster : Cluster
  parent : Option ClusterId
  northWest : Option ClusterId
  northEast : Option ClusterId
  southWest : Option ClusterId
  southEast : Option ClusterId

namespace ClusterEntry

/-- The labels of the children, in visiting order, with gaps. -/
def slots (e : ClusterEntry) : List (Option ClusterId) :=
  [e.northWest, e.northEast, e.southWest, e.southEast]

end ClusterEntry

namespace Branch

def label? (b : Branch) : Option ClusterId :=
  b.top?.map (·.id)

/-- The clusters of a branch with their places, in the order of `clusters`. -/
def entries (parent : Option ClusterId) : Branch → List ClusterEntry
  | absent => []
  | node c nw ne sw se =>
    { cluster := c, parent, northWest := nw.label?, northEast := ne.label?
      southWest := sw.label?, southEast := se.label? } ::
      (entries c.id nw ++ entries c.id ne ++ entries c.id sw ++ entries c.id se)

/-- The clusters in which an owner's chunk holds an entity, in the order of `clusters`. The whole
branch is searched. -/
def holders (owner : OwnerId) (entity : EntityId) : Branch → List ClusterId
  | absent => []
  | node c nw ne sw se =>
    let below := nw.holders owner entity ++ ne.holders owner entity ++
      sw.holders owner entity ++ se.holders owner entity
    if c.holds owner entity then c.id :: below else below

/-- The first chunk of an owner, at exactly the given scale, that holds an entity. -/
def findChunk? (owner : OwnerId) (entity : EntityId) (scale : Int) : Branch → Option Chunk
  | absent => none
  | node c nw ne sw se =>
    if c.square.scale = scale then
      (c.bucket? owner).filter fun chunk => chunk.has entity
    else if c.square.scale < scale then none
    else
      (nw.findChunk? owner entity scale).or
        ((ne.findChunk? owner entity scale).or
          ((sw.findChunk? owner entity scale).or (se.findChunk? owner entity scale)))

/-- Whether a branch is there and its square, seen from the square above, holds a point. -/
def takes (above : Square) (q : Quadrant) (p : Point) : Branch → Bool
  | absent => false
  | node _ _ _ _ _ => (above.quadrant q).contains p

/-- The cluster at exactly the given scale on the way down to a point. At each step the first
quadrant that takes the point is entered. -/
def locate? (p : Point) (scale : Int) : Branch → Option Cluster
  | absent => none
  | node c nw ne sw se =>
    if c.square.scale < scale ∨ !c.square.contains p then none
    else if c.square.scale = scale then some c
    else if nw.takes c.square .northWest p then nw.locate? p scale
    else if ne.takes c.square .northEast p then ne.locate? p scale
    else if sw.takes c.square .southWest p then sw.locate? p scale
    else if se.takes c.square .southEast p then se.locate? p scale
    else none

/-- The chunks that a viewport shows: the walk follows clusters that meet the viewport and stops at
the first one that is fine enough, whose chunks it takes whole. -/
def shown (viewport : Viewport) : Branch → List Chunk
  | absent => []
  | node c nw ne sw se =>
    if !c.square.meets viewport.center viewport.scale then []
    else if Float.ofInt c.square.scale < viewport.scale - viewport.span then
      c.bucketList.map (·.2)
    else nw.shown viewport ++ ne.shown viewport ++ sw.shown viewport ++ se.shown viewport

end Branch

namespace Tree

/-- All clusters with their places, in ascending order of their labels. -/
def entries (t : Tree) : List ClusterEntry :=
  (t.root.entries none).mergeSort fun a b =>
    decide (a.cluster.id.number.toNat ≤ b.cluster.id.number.toNat)

def entry? (t : Tree) (id : ClusterId) : Option ClusterEntry :=
  (t.root.entries none).find? fun e => e.cluster.id == id

/-- The center of the square of one quadrant of a cluster, if clusters of its scale split. -/
def childCenter? (t : Tree) (c : Cluster) (q : Quadrant) : Option Point :=
  if t.splits c.square.scale then some (c.square.quadrant q).center else none

def holders (t : Tree) (owner : OwnerId) (entity : EntityId) : List ClusterId :=
  t.root.holders owner entity

/-- The chunk of an owner that holds an entity at exactly the given scale. -/
def findChunk? (t : Tree) (owner : OwnerId) (entity : EntityId) (scale : Int) : Option Chunk :=
  t.root.findChunk? owner entity scale

/-- The same, searched from a cluster down. An unknown cluster has none. -/
def findChunkFrom? (t : Tree) (start : ClusterId) (owner : OwnerId) (entity : EntityId)
    (scale : Int) : Option Chunk :=
  (t.branch? start).bind (·.findChunk? owner entity scale)

/-- The cluster at exactly the given scale whose square holds a point. -/
def locate? (t : Tree) (p : Point) (scale : Int) : Option Cluster :=
  t.root.locate? p scale

/-- The chunk that an edge delegate leads to: its owner's, in the cluster that covers the center
of the target square. -/
def peer? (t : Tree) (d : EdgeDelegate) : Option ChunkId := do
  let c ← t.locate? d.peerCenter d.scale
  let chunk ← c.bucket? d.owner
  return chunk.id

/-- Fill in where an edge delegate leads, unless it is known already. -/
def linkPeer (t : Tree) (d : EdgeDelegate) : EdgeDelegate :=
  match d.peer with
  | some _ => d
  | none => { d with peer := t.peer? d }

/-- Add what a viewport shows to a view, then link the edge delegates of the view. -/
def fillView (t : Tree) (viewport : Viewport) (v : View) : View :=
  let v := (t.root.shown viewport).foldl (fun v chunk => chunk.exportTo v) v
  { v with edges := v.edges.map t.linkPeer }

end Tree

end RailAtlas
