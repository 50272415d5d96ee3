import RailAtlas.Index.Branch
import RailAtlas.Index.ScaleRange
import RailAtlas.Logged

/-!
# The cluster tree

The tree over the whole world: its scales, its branches from the root cluster down, and the
counters for labels. Entities are indexed from the root or from a given cluster downwards, and
removed in the same way. Clusters can also be made and deleted one at a time.
-/

namespace RailAtlas

/-- The quad tree over the world square. -/
structure Tree where
  range : ScaleRange
  root : Branch
  labels : Labels

/-- A call that the tree cannot answer at all: it names a cluster that does not exist, a direction
that is none, or a place that cannot be built on. -/
inductive Fault where
  | missingCluster (cluster : ClusterId)
  | badDirection (direction : Int)
  | rootExists (root : ClusterId)
  | atFinestScale (cluster : Cluster)
  | childExists (cluster : Cluster) (dx dy : Int)

def Fault.message : Fault → String
  | missingCluster cluster => s!"cluster {cluster.render} missing from registry"
  | badDirection direction => s!"direction must be -1 or +1, got {direction}"
  | rootExists root => s!"tree already has root {root.render}"
  | atFinestScale cluster => s!"{cluster.render} is at the finest scale"
  | childExists cluster dx dy => s!"{cluster.render} already has a child at ({dx}, {dy})"

namespace Placement

/-- The position under which an entity is indexed: it has to be finite. -/
def position? (p : Placement) : Option Point :=
  p.point.filter Point.isFinite

/-- What a chunk records about the entity at a position. -/
def member (p : Placement) (position : Point) : Member :=
  { kind := p.kind, point := position, target := p.target }

end Placement

/-- Size of a tree: clusters, chunks, memberships on all levels, and the least scale of a
cluster. -/
structure TreeStats where
  clusters : Nat
  buckets : Nat
  placements : Nat
  finestScale : Int
deriving DecidableEq

namespace Tree

def rootId : ClusterId := ⟨0⟩

def worldSquare (range : ScaleRange) : Square :=
  { center := .origin, scale := range.maxScale }

/-- A tree that has only its root cluster. -/
def create (range : ScaleRange) : Except IndexError Tree := do
  range.validate
  return {
    range
    root := .leaf (.empty rootId (worldSquare range))
    labels := Labels.start.takeCluster.2 }

def levelsBelow (t : Tree) (scale : Int) : Nat :=
  (scale - t.range.minScale).toNat

/-- Whether clusters of the given scale may have children. -/
def splits (t : Tree) (scale : Int) : Bool :=
  decide (t.range.minScale < scale)

def branch? (t : Tree) (id : ClusterId) : Option Branch :=
  t.root.find? id

def cluster? (t : Tree) (id : ClusterId) : Option Cluster :=
  (t.branch? id).bind Branch.top?

def isRegistered (t : Tree) (id : ClusterId) : Bool :=
  (t.branch? id).isSome

def clusters (t : Tree) : List Cluster :=
  t.root.clusters.mergeSort fun a b => decide (a.id.number.toNat ≤ b.id.number.toNat)

def stats (t : Tree) : TreeStats :=
  let all := t.root.clusters
  { clusters := all.length
    buckets := all.foldr (fun c n => c.buckets.size + n) 0
    placements := all.foldr (fun c n => c.memberCount + n) 0
    finestScale := (all.map fun c => c.square.scale).foldl min t.range.maxScale }

/-! ### Entities -/

/-- Grow a branch of the tree by a member and put it back in its place. -/
def growBranch (t : Tree) (start : ClusterId) (b : Branch) (p : Placement) (position : Point) :
    Logged IndexWarning Tree :=
  let square := match b.top? with
    | some c => c.square
    | none => worldSquare t.range
  let g := b.grow p.owner p.id (p.member position) (t.levelsBelow square.scale) square t.labels
  { value := { t with root := Branch.replace start g.branch t.root, labels := g.labels }
    notices := g.warnings }

/-- Index an entity in a cluster and in every cluster below it whose square holds its point.
Bookkeeping kinds are not indexed, and an entity without a finite position is only reported. -/
def addFrom (t : Tree) (start : ClusterId) (p : Placement) :
    Except Fault (Logged IndexWarning Tree) :=
  if !p.kind.isSpatial then .ok (.quiet t)
  else
    match p.position? with
    | none => .ok { value := t, notices := [.noPosition p.id p.kind] }
    | some position =>
      match t.branch? start with
      | none => .error (.missingCluster start)
      | some b => .ok (t.growBranch start b p position)

def add (t : Tree) (p : Placement) : Logged IndexWarning Tree :=
  if !p.kind.isSpatial then .quiet t
  else
    match p.position? with
    | none => { value := t, notices := [.noPosition p.id p.kind] }
    | some position =>
      let g := t.root.grow p.owner p.id (p.member position)
        (t.levelsBelow t.range.maxScale) (worldSquare t.range) t.labels
      { value := { t with root := g.branch, labels := g.labels }, notices := g.warnings }

/-- Remove an entity from a cluster and from everything below it that holds it. Chunks and
clusters that are left without data go, except the root; clusters above the start stay as they
are. -/
def removeFrom (t : Tree) (start : ClusterId) (p : Placement) : Except Fault Tree :=
  if !p.kind.isSpatial then .ok t
  else
    match t.branch? start with
    | none => .error (.missingCluster start)
    | some b =>
      let rest := b.scrubFrom (start == rootId) p.owner p.id
      .ok { t with root := Branch.replace start rest t.root }

def remove (t : Tree) (p : Placement) : Tree :=
  if !p.kind.isSpatial then t
  else { t with root := t.root.scrubFrom true p.owner p.id }

/-- Index an entity anew from the root down: remove it, then add it. -/
def update (t : Tree) (p : Placement) : Logged IndexWarning Tree :=
  (t.remove p).add p

/-- Index an entity anew from a cluster down. If the cluster has gone with the removal, the
entity is added from the root. -/
def updateFrom (t : Tree) (start : ClusterId) (p : Placement) :
    Except Fault (Logged IndexWarning Tree) := do
  let rest ← t.removeFrom start p
  if rest.isRegistered start then rest.addFrom start p else return rest.add p

/-! ### Single clusters -/

/-- Make an empty cluster in one quadrant of another. -/
def newChild (t : Tree) (parent : ClusterId) (dx dy : Int) : Except Fault (ClusterId × Tree) := do
  match t.branch? parent with
  | none => .error (.missingCluster parent)
  | some .absent => .error (.missingCluster parent)
  | some b@(.node c _ _ _ _) =>
    if !t.splits c.square.scale then .error (.atFinestScale c)
    else
      match Quadrant.ofDirections dx dy with
      | .error direction => .error (.badDirection direction)
      | .ok q =>
        match b.child q with
        | .node _ _ _ _ _ => .error (.childExists c dx dy)
        | .absent =>
          let (id, labels) := t.labels.takeCluster
          let grown := b.setChild q (.leaf (.empty id (c.square.quadrant q)))
          .ok (id, { t with root := Branch.replace parent grown t.root, labels })

/-- Make a cluster without a parent. The tree has its root already, so there is no place for
one. -/
def newRoot (_ : Tree) : Fault :=
  .rootExists rootId

/-- Succeeds when nothing is indexed in a cluster or below it; otherwise the first cluster with
data is named. -/
def checkDelete (t : Tree) (id : ClusterId) : Except IndexError Unit :=
  match t.branch? id with
  | none => .error (.unknownCluster id)
  | some b =>
    match b.firstData? with
    | some holder => .error (.dataExists holder)
    | none => .ok ()

/-- Delete a cluster with everything below it, whether or not it has data. -/
def delete (t : Tree) (id : ClusterId) : Except IndexError Tree :=
  if id = rootId then .error (.rootIsPermanent id)
  else if !t.isRegistered id then .error (.unknownCluster id)
  else .ok { t with root := Branch.replace id .absent t.root }

end Tree

end RailAtlas
