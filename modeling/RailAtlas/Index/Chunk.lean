import RailAtlas.Geometry.Square
import RailAtlas.Index.View

/-!
# Chunks

A chunk holds the entities that one owner has inside one cluster. It lists them in ascending order,
summarises them by kind and by target square, and writes itself into a view.
-/

namespace RailAtlas

/-- An entity as the index is told about it. `point` is its representative position, which is the
origin's for a directed kind; `target` is where a directed entity leads. -/
structure Placement where
  id : EntityId
  owner : OwnerId
  kind : EntityKind
  point : Option Point
  target : Option Point
deriving DecidableEq

/-- What a chunk knows about one of its entities. -/
structure Member where
  kind : EntityKind
  point : Point
  target : Option Point
deriving DecidableEq

/-- The entities of one owner inside the square of one cluster. -/
structure Chunk where
  id : ChunkId
  owner : OwnerId
  home : ClusterId
  square : Square
  members : Std.ExtTreeMap EntityId Member

/-- A directed member seen from the square it leaves. -/
structure Departure where
  id : EntityId
  offset : SquareOffset
  origin : Point
  target : Point
deriving DecidableEq

namespace Chunk

def empty (id : ChunkId) (owner : OwnerId) (home : ClusterId) (square : Square) : Chunk :=
  { id, owner, home, square, members := ∅ }

def get? (c : Chunk) (entity : EntityId) : Option Member :=
  c.members[entity]?

def has (c : Chunk) (entity : EntityId) : Bool :=
  c.members.contains entity

/-- The members in ascending order of their entities. -/
def memberList (c : Chunk) : List (EntityId × Member) :=
  c.members.toList

def size (c : Chunk) : Nat :=
  c.members.size

def isEmpty (c : Chunk) : Bool :=
  c.members.isEmpty

/-- Hold an entity, replacing what was recorded for it. -/
def insert (c : Chunk) (entity : EntityId) (m : Member) : Chunk :=
  { c with members := c.members.insert entity m }

def erase (c : Chunk) (entity : EntityId) : Chunk :=
  { c with members := c.members.erase entity }

def clear (c : Chunk) : Chunk :=
  { c with members := ∅ }

def ofKind (c : Chunk) (kind : EntityKind) : List (EntityId × Member) :=
  c.memberList.filter fun (_, m) => m.kind == kind

/-- The summary of the members of one kind, if there are any. -/
def delegate? (c : Chunk) (kind : EntityKind) : Option Delegate :=
  match c.ofKind kind with
  | [] => none
  | found =>
    some
      { chunk := c.id
        owner := c.owner
        kind
        scale := c.square.scale
        point := Point.mean (found.map (·.2.point))
        members := found.map (·.1) }

/-- The kinds that are summarised when a chunk is shown. -/
def delegatedKinds : List EntityKind :=
  [.railNode, .residence, .company]

/-- The square of the chunk's size that holds a point, relative to the chunk's own square. -/
def squareOffset (c : Chunk) (p : Point) : SquareOffset :=
  let side := c.square.side
  let half := c.square.half
  { dx := floorClamped ((p.x - (c.square.center.x - half)) / side)
    dy := floorClamped ((p.y - (c.square.center.y - half)) / side) }

def centerAt (c : Chunk) (offset : SquareOffset) : Point :=
  let side := c.square.side
  { x := c.square.center.x + Float.ofInt offset.dx * side
    y := c.square.center.y + Float.ofInt offset.dy * side }

/-- The directed members whose targets are in another square. -/
def departures (c : Chunk) : List Departure :=
  c.memberList.filterMap fun (id, m) => do
    let target ← m.target
    let offset := c.squareOffset target
    if offset = .here then none else some { id, offset, origin := m.point, target }

/-- Insert an offset into an ascending list, unless it is there. -/
def insertOffset (o : SquareOffset) : List SquareOffset → List SquareOffset
  | [] => [o]
  | p :: rest =>
    if o = p then p :: rest
    else if o.before p then o :: p :: rest
    else p :: insertOffset o rest

/-- The summary of the departures towards one square. -/
def edgeDelegate (c : Chunk) (offset : SquareOffset) (group : List Departure) : EdgeDelegate :=
  { chunk := c.id
    owner := c.owner
    scale := c.square.scale
    offset
    peerCenter := c.centerAt offset
    peer := none
    origin := Point.mean (group.map (·.origin))
    target := Point.mean (group.map (·.target))
    members := group.map (·.id) }

/-- One summary for each square that departures lead to, in ascending order of the squares. -/
def edgeDelegates (c : Chunk) : List EdgeDelegate :=
  let all := c.departures
  let offsets := all.foldl (fun os d => insertOffset d.offset os) []
  offsets.map fun o => c.edgeDelegate o (all.filter fun d => d.offset == o)

def source (c : Chunk) : ViewSource :=
  { cluster := c.home, chunk := c.id, owner := c.owner, scale := c.square.scale }

/-- A member as a view shows it. -/
def entry (c : Chunk) (id : EntityId) (m : Member) : ViewEntry :=
  { id, owner := c.owner, kind := m.kind, point := m.point, scale := c.square.scale }

/-- Write the chunk into a view: the source, every member, the delegates and the edge
delegates. -/
def exportTo (c : Chunk) (v : View) : View :=
  let v := v.addSource c.source
  let v := c.memberList.foldl (fun v (id, m) => v.insert (c.entry id m)) v
  let v := (delegatedKinds.filterMap c.delegate?).foldl View.addDelegate v
  c.edgeDelegates.foldl View.addEdge v

end Chunk

end RailAtlas
