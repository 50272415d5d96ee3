import RailAtlas.Index.Lookup
import RailAtlas.Ident.Stream
import RailAtlas.World.Event

/-!
# The world

The world is a registry of entities, a clock with a seed, the log of its changes, and an index over
the registry. Only the operations below change it, and each of them changes the registry, the index
and the log together. An operation that is refused changes nothing.
-/

namespace RailAtlas

structure World where
  registry : Std.ExtTreeMap EntityId EntityRecord
  tick : UInt64
  seed : UInt64
  log : Array Event
  index : Tree

namespace World

/-- An empty world at tick zero. -/
def create (range : ScaleRange) (seed : UInt64) : Except WorldError World :=
  match Tree.create range with
  | .error cause => .error (.index cause)
  | .ok index => .ok { registry := ∅, tick := 0, seed, log := #[], index }

def get? (w : World) (id : EntityId) : Option EntityRecord :=
  w.registry[id]?

/-- The registered entities in ascending order. -/
def entities (w : World) : List (EntityId × EntityRecord) :=
  w.registry.toList

def entityCount (w : World) : Nat :=
  w.registry.size

/-- Whether a point is finite and inside the world square. -/
def containsPoint (w : World) (p : Point) : Bool :=
  p.isFinite && (Tree.worldSquare w.index.range).contains p

/-- The position of a registered entity that has one of its own. -/
def positionOf? (w : World) (id : EntityId) : Option Point :=
  (w.get? id).bind EntityRecord.point?

/-- How the index is told about an entity with a given record. An edge is placed at its origin
and leads to its target. -/
def placementOf (w : World) (id : EntityId) (r : EntityRecord) : Placement :=
  let (point, target) := match r.shape with
    | .point p => (some p, none)
    | .edge origin target => (w.positionOf? origin, w.positionOf? target)
    | .placeless => (none, none)
  { id, owner := r.owner, kind := r.kind, point, target }

/-- How the index is told about a registered entity. -/
def placement? (w : World) (id : EntityId) : Option Placement :=
  (w.get? id).map (w.placementOf id)

/-- The edges with a node at either end, in ascending order. -/
def touching (w : World) (node : EntityId) : List EntityId :=
  (w.entities.filter fun (_, r) => r.touches node).map (·.1)

def record (w : World) (e : Event) : World :=
  { w with log := w.log.push e }

/-! ### Spawning -/

/-- Requires a registered rail node. -/
def requireNode (w : World) (id : EntityId) : Except WorldError Unit :=
  match w.get? id with
  | none => .error (.unknownEntity id)
  | some r => if r.kind = .railNode then .ok () else .error (.notANode id)

/-- Requires that the shape of a new entity fits into the world: a point inside it, or an edge
between registered nodes, the origin being looked at first. -/
def requirePlace (w : World) : Shape → Except WorldError Unit
  | .point p => if w.containsPoint p then .ok () else .error (.outOfWorld p)
  | .edge origin target => do
    w.requireNode origin
    w.requireNode target
  | .placeless => .ok ()

/-- The conditions for a new entity, in the order in which they are reported. -/
def requireSpawnable (w : World) (id : EntityId) (r : EntityRecord) : Except WorldError Unit :=
  if w.registry.contains id then .error (.duplicateEntity id)
  else if !r.isWellFormed then .error (.shapeMismatch r.kind)
  else w.requirePlace r.shape

/-- Register an entity, index it and log it, without asking whether it may be. -/
def register (w : World) (id : EntityId) (r : EntityRecord) : Logged IndexWarning World :=
  let w := { w with registry := w.registry.insert id r }
  (w.index.add (w.placementOf id r)).map fun index =>
    { w with index }.record (.spawned id r)

def spawnWithId (w : World) (id : EntityId) (r : EntityRecord) :
    Except WorldError (Logged IndexWarning World) := do
  w.requireSpawnable id r
  return w.register id r

/-- Spawn an entity under a fresh identifier. The identifier is drawn before anything is checked,
so that a refused spawn uses one up. -/
def spawn (w : World) (ids : IdStream) (r : EntityRecord) :
    Except WorldError (EntityId × Logged IndexWarning World) × IdStream :=
  let (id, ids) := ids.draw
  ((w.spawnWithId id r).map fun next => (id, next), ids)

/-! ### Despawning -/

/-- Take one entity out of the index and the registry and log it. What depends on it is not
looked at. -/
def retire (w : World) (id : EntityId) : World :=
  match w.get? id with
  | none => w
  | some r =>
    { w with
      index := w.index.remove (w.placementOf id r)
      registry := w.registry.erase id }.record (.despawned id r)

/-- The entities that cannot exist without a given one: the edges at a rail node. -/
def dependants (w : World) (id : EntityId) (r : EntityRecord) : List EntityId :=
  if r.kind = .railNode then w.touching id else []

/-- Remove an entity after everything that cannot exist without it. Gives the record it had. -/
def despawn (w : World) (id : EntityId) : Except WorldError (EntityRecord × World) :=
  match w.get? id with
  | none => .error (.unknownEntity id)
  | some r => .ok (r, ((w.dependants id r).foldl retire w).retire id)

/-! ### Moving -/

/-- Tell the index anew about a registered entity. -/
def reindex (w : World) (id : EntityId) : Logged IndexWarning World :=
  match w.placement? id with
  | none => .quiet w
  | some p => (w.index.update p).map fun index => { w with index }

/-- The conditions for moving an entity, in the order in which they are reported. Gives the record
and the old position. -/
def requireMovable (w : World) (id : EntityId) (goal : Point) :
    Except WorldError (EntityRecord × Point) :=
  match w.get? id with
  | none => .error (.unknownEntity id)
  | some r =>
    match r.shape with
    | .point old => if w.containsPoint goal then .ok (r, old) else .error (.outOfWorld goal)
    | _ => .error (.immovable id)

/-- Give a located entity a new position and index it and the edges at it anew, since an edge
carries the positions of both its ends. -/
def relocate (w : World) (id : EntityId) (r : EntityRecord) (old goal : Point) :
    Logged IndexWarning World :=
  let w := { w with registry := w.registry.insert id { r with shape := .point goal } }
  (Logged.foldList reindex w (id :: w.dependants id r)).map fun w => w.record (.moved id old goal)

def moveTo (w : World) (id : EntityId) (goal : Point) :
    Except WorldError (Logged IndexWarning World) := do
  let (r, old) ← w.requireMovable id goal
  return w.relocate id r old goal

/-! ### The clock and the log -/

def step (w : World) : World :=
  let tick := w.tick + 1
  let seed := splitMix w.seed
  { w with tick, seed }.record (.stepped tick seed)

/-- Take the log out of the world. -/
def drainEvents (w : World) : Array Event × World :=
  (w.log, { w with log := #[] })

/-- How many events have to go so that at most `keep` remain. -/
def excess (w : World) (keep : Nat) : Nat :=
  w.log.size - keep

/-- Drop the oldest events so that at most `keep` remain. -/
def trimEvents (w : World) (keep : Nat) : World :=
  { w with log := w.log.extract (w.excess keep) w.log.size }

/-! ### Queries -/

def view (w : World) (viewport : Viewport) : View :=
  w.index.fillView viewport .empty

/-- The chunk that holds an entity at exactly the given scale. -/
def findChunk? (w : World) (id : EntityId) (scale : Int) : Option Chunk := do
  let r ← w.get? id
  w.index.findChunk? r.owner id scale

/-- Succeeds when an owner has nothing spatial left, in the registry and then in the index. -/
def checkOwnerClear (w : World) (owner : OwnerId) : Except WorldError Unit :=
  let count := w.entities.countP fun (_, r) => r.owner == owner && r.kind.isSpatial
  if 0 < count then .error (.ownerHasEntities owner count)
  else
    let stale := w.index.root.clusters.countP fun c => (c.bucket? owner).isSome
    if 0 < stale then .error (.ownerHasEntities owner stale) else .ok ()

end World

end RailAtlas
