import RailAtlas.Ident.Text
import RailAtlas.Index.Cluster

/-!
# Branches of the quad tree

A branch is either absent or a cluster over four branches, one for each quadrant. Parents and
children are the structure of the tree itself, so a cluster can neither be orphaned nor have two
parents; the labels of clusters and chunks only name them.

Indexing an entity follows its point downwards and creates clusters and chunks on the way; the
counters for their labels are threaded through the descent. Removing an entity follows the chunks
that hold it and prunes what it leaves without data.
-/

namespace RailAtlas

/-- The part of the quad tree over one square. -/
inductive Branch where
  | absent
  | node (cluster : Cluster) (northWest northEast southWest southEast : Branch)

/-- How many clusters and chunks have been labelled so far. Labels are given out in order and have
32 bits, so the label that comes next is the count modulo `2 ^ 32`; taking one never fails. -/
structure Labels where
  clusters : Nat
  chunks : Nat
deriving DecidableEq

/-- Something unusual that was met while an entity was indexed. -/
inductive IndexWarning where
  /-- A cluster was visited whose square does not hold the point; it is shown as it was before. -/
  | outOfBounds (entity : EntityId) (point : Point) (cluster : Cluster)
  /-- A spatial entity had no finite position. -/
  | noPosition (entity : EntityId) (kind : EntityKind)

def IndexWarning.message : IndexWarning → String
  | outOfBounds entity point cluster =>
    s!"entity is out of bounds; entity={entity.render}; point={point.render}" ++
      s!"; cluster={cluster.render}"
  | noPosition entity kind =>
    s!"no position to index; entity={entity.render}; kind={kind.name}"

/-- What indexing an entity has made of a branch. -/
structure Growth where
  branch : Branch
  labels : Labels
  warnings : List IndexWarning

namespace Labels

def start : Labels :=
  { clusters := 0, chunks := 0 }

def takeCluster (l : Labels) : ClusterId × Labels :=
  (⟨UInt32.ofNat l.clusters⟩, { l with clusters := l.clusters + 1 })

def takeChunk (l : Labels) : ChunkId × Labels :=
  (⟨UInt32.ofNat l.chunks⟩, { l with chunks := l.chunks + 1 })

end Labels

namespace Cluster

/-- Record a member for an owner, giving the owner a new chunk if there is none. -/
def record (c : Cluster) (owner : OwnerId) (entity : EntityId) (m : Member) (labels : Labels) :
    Cluster × Labels :=
  match c.bucket? owner with
  | some chunk => (c.setBucket (chunk.insert entity m), labels)
  | none =>
    let (id, labels) := labels.takeChunk
    (c.setBucket ((Chunk.empty id owner c.id c.square).insert entity m), labels)

end Cluster

namespace Branch

def leaf (c : Cluster) : Branch :=
  node c absent absent absent absent

def top? : Branch → Option Cluster
  | absent => none
  | node c _ _ _ _ => some c

def child : Branch → Quadrant → Branch
  | absent, _ => absent
  | node _ nw _ _ _, .northWest => nw
  | node _ _ ne _ _, .northEast => ne
  | node _ _ _ sw _, .southWest => sw
  | node _ _ _ _ se, .southEast => se

/-- The branch with another one over a quadrant. -/
def setChild (b : Branch) (q : Quadrant) (new : Branch) : Branch :=
  match b, q with
  | absent, _ => absent
  | node c _ ne sw se, .northWest => node c new ne sw se
  | node c nw _ sw se, .northEast => node c nw new sw se
  | node c nw ne _ se, .southWest => node c nw ne new se
  | node c nw ne sw _, .southEast => node c nw ne sw new

/-- The clusters of a branch, every cluster before those below it and quadrants in visiting
order. -/
def clusters : Branch → List Cluster
  | absent => []
  | node c nw ne sw se => c :: (nw.clusters ++ ne.clusters ++ sw.clusters ++ se.clusters)

/-- The branch whose top cluster has a label. -/
def find? (id : ClusterId) : Branch → Option Branch
  | absent => none
  | node c nw ne sw se =>
    if c.id = id then some (node c nw ne sw se)
    else (nw.find? id).or ((ne.find? id).or ((sw.find? id).or (se.find? id)))

/-- Replace every branch whose top cluster has a label. -/
def replace (id : ClusterId) (new : Branch) : Branch → Branch
  | absent => absent
  | node c nw ne sw se =>
    if c.id = id then new
    else node c (replace id new nw) (replace id new ne) (replace id new sw) (replace id new se)

/-- The first cluster with data, in the order of `clusters`. -/
def firstData? : Branch → Option ClusterId
  | absent => none
  | node c nw ne sw se =>
    if c.hasData then some c.id
    else nw.firstData?.or (ne.firstData?.or (sw.firstData?.or se.firstData?))

/-- Drop a branch in which nothing is indexed. -/
def prune (b : Branch) : Branch :=
  match b.firstData? with
  | some _ => b
  | none => absent

/-! ### Indexing an entity -/

/-- The warning about a cluster that is visited although its square does not hold the point. -/
def boundsWarning (c : Cluster) (entity : EntityId) (m : Member) : List IndexWarning :=
  if c.square.contains m.point then [] else [.outOfBounds entity m.point c]

/-- A branch as it was, nothing indexed in it. -/
def unchanged (b : Branch) (labels : Labels) : Growth :=
  { branch := b, labels, warnings := [] }

/-- A cluster that is being visited, with the branches below it. -/
structure Visit where
  cluster : Cluster
  northWest : Branch
  northEast : Branch
  southWest : Branch
  southEast : Branch
  labels : Labels

/-- Visit the cluster on top of a branch. An absent one is created over the given square. -/
def visit (square : Square) (b : Branch) (labels : Labels) : Visit :=
  match b with
  | node c nw ne sw se =>
    { cluster := c, northWest := nw, northEast := ne, southWest := sw, southEast := se, labels }
  | absent =>
    let (id, labels) := labels.takeCluster
    { cluster := Cluster.empty id square, northWest := absent, northEast := absent
      southWest := absent, southEast := absent, labels }

/-- Index a member in the cluster over `square`, which is created if it is absent, and in every
quadrant below it that holds the member's point. `levels` is the number of scales below the
cluster. -/
def grow (owner : OwnerId) (entity : EntityId) (m : Member) :
    (levels : Nat) → (square : Square) → Branch → Labels → Growth
  | 0, square, b, labels =>
    let v := b.visit square labels
    let (filled, labels) := v.cluster.record owner entity m v.labels
    { branch := node filled v.northWest v.northEast v.southWest v.southEast
      labels
      warnings := boundsWarning v.cluster entity m }
  | levels + 1, square, b, labels =>
    let v := b.visit square labels
    let (filled, labels) := v.cluster.record owner entity m v.labels
    let descend (q : Quadrant) (b : Branch) (labels : Labels) : Growth :=
      let below := v.cluster.square.quadrant q
      if below.contains m.point then grow owner entity m levels below b labels
      else b.unchanged labels
    let nw := descend .northWest v.northWest labels
    let ne := descend .northEast v.northEast nw.labels
    let sw := descend .southWest v.southWest ne.labels
    let se := descend .southEast v.southEast sw.labels
    { branch := node filled nw.branch ne.branch sw.branch se.branch
      labels := se.labels
      warnings := boundsWarning v.cluster entity m ++
        (nw.warnings ++ (ne.warnings ++ (sw.warnings ++ se.warnings))) }

/-! ### Removing an entity -/

/-- Take an entity out of a branch whose top cluster holds it and out of the holders below it,
and drop what is left without data. A branch whose top does not hold the entity is not entered. -/
def scrub (owner : OwnerId) (entity : EntityId) : Branch → Branch
  | absent => absent
  | node c nw ne sw se =>
    if c.holds owner entity then
      (node (c.discard owner entity) (nw.scrub owner entity) (ne.scrub owner entity)
        (sw.scrub owner entity) (se.scrub owner entity)).prune
    else node c nw ne sw se

/-- Take an entity out of the cluster where removal starts, whether or not it is held there, and
out of the holders below it. The root stays even without data. -/
def scrubFrom (isRoot : Bool) (owner : OwnerId) (entity : EntityId) : Branch → Branch
  | absent => absent
  | node c nw ne sw se =>
    let rest := node (c.discard owner entity) (nw.scrub owner entity) (ne.scrub owner entity)
      (sw.scrub owner entity) (se.scrub owner entity)
    if isRoot then rest else rest.prune

end Branch

end RailAtlas
