import RailAtlas.Entity.Kind
import RailAtlas.Geometry.Point
import RailAtlas.Ident.Basic

/-!
# What a viewport shows

A view collects the entities found, each once, together with the chunks they came from and two
kinds of summaries: a delegate stands for all members of one kind in a chunk, an edge delegate for
all directed members of a chunk whose targets fall into one other square of the same size.
-/

namespace RailAtlas

/-- One visible entity, with the scale of the cluster that showed it first. -/
structure ViewEntry where
  id : EntityId
  owner : OwnerId
  kind : EntityKind
  point : Point
  scale : Int
deriving DecidableEq

/-- A chunk that contributed to a view. -/
structure ViewSource where
  cluster : ClusterId
  chunk : ChunkId
  owner : OwnerId
  scale : Int
deriving DecidableEq

/-- All members of one kind in one chunk, placed at the mean of their positions. -/
structure Delegate where
  chunk : ChunkId
  owner : OwnerId
  kind : EntityKind
  scale : Int
  point : Point
  members : List EntityId
deriving DecidableEq

/-- The place of a square relative to another of the same size, counted in squares. -/
structure SquareOffset where
  dx : Int
  dy : Int
deriving DecidableEq

namespace SquareOffset

/-- The square itself. -/
def here : SquareOffset := ⟨0, 0⟩

/-- Offsets are ordered by column, then by row. -/
def before (a b : SquareOffset) : Bool :=
  decide (a.dx < b.dx) || (decide (a.dx = b.dx) && decide (a.dy ≤ b.dy))

end SquareOffset

/-- The directed members of one chunk whose targets fall into one other square. `peer` is the
owner's chunk in that square, once it is known; `origin` and `target` are means. -/
structure EdgeDelegate where
  chunk : ChunkId
  owner : OwnerId
  scale : Int
  offset : SquareOffset
  peerCenter : Point
  peer : Option ChunkId
  origin : Point
  target : Point
  members : List EntityId
deriving DecidableEq

/-- What a viewport query has gathered so far. Entries are keyed by entity, the rest is listed in
the order in which it was added. -/
structure View where
  entries : Std.ExtTreeMap EntityId ViewEntry
  sources : List ViewSource
  delegates : List Delegate
  edges : List EdgeDelegate

namespace View

def empty : View :=
  { entries := ∅, sources := [], delegates := [], edges := [] }

def contains (v : View) (id : EntityId) : Bool :=
  v.entries.contains id

def get? (v : View) (id : EntityId) : Option ViewEntry :=
  v.entries[id]?

/-- The entries, in ascending order of their entities. -/
def entryList (v : View) : List ViewEntry :=
  v.entries.toList.map (·.2)

/-- Show an entity, unless it is shown already: the first entry stays. -/
def insert (v : View) (e : ViewEntry) : View :=
  if v.contains e.id then v else { v with entries := v.entries.insert e.id e }

def addSource (v : View) (s : ViewSource) : View :=
  { v with sources := v.sources ++ [s] }

def addDelegate (v : View) (d : Delegate) : View :=
  { v with delegates := v.delegates ++ [d] }

def addEdge (v : View) (d : EdgeDelegate) : View :=
  { v with edges := v.edges ++ [d] }

def outEdges (v : View) (chunk : ChunkId) : List EdgeDelegate :=
  v.edges.filter fun d => d.chunk == chunk

def inEdges (v : View) (chunk : ChunkId) : List EdgeDelegate :=
  v.edges.filter fun d => d.peer == some chunk

def size (v : View) : Nat :=
  v.entries.size

end View

end RailAtlas
