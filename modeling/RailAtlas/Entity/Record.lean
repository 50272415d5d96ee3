import RailAtlas.Entity.Kind
import RailAtlas.Geometry.Point
import RailAtlas.Ident.Basic

/-!
# What the world records about an entity

A record holds the kind, the owner and the shape. A shape is a point, a directed link between two
nodes, or nothing; which of them it has to be follows from the kind.
-/

namespace RailAtlas

inductive Shape where
  /-- A located entity. -/
  | point (position : Point)
  /-- A directed link between two rail nodes, anchored at its origin. -/
  | edge (origin target : EntityId)
  /-- An entity without a place. -/
  | placeless
deriving DecidableEq

structure EntityRecord where
  kind : EntityKind
  owner : OwnerId
  shape : Shape
deriving DecidableEq

namespace EntityRecord

def point? (r : EntityRecord) : Option Point :=
  match r.shape with
  | .point p => some p
  | _ => none

/-- Whether this is an edge with `node` at either end. -/
def touches (r : EntityRecord) (node : EntityId) : Bool :=
  match r.shape with
  | .edge origin target => origin == node || target == node
  | _ => false

/-- Whether this is an edge that starts at `node`. -/
def leaves (r : EntityRecord) (node : EntityId) : Bool :=
  match r.shape with
  | .edge origin _ => origin == node
  | _ => false

/-- Whether the shape fits the kind: an edge for directed kinds, a point for the other spatial
kinds, and nothing for bookkeeping. -/
def isWellFormed (r : EntityRecord) : Bool :=
  match r.shape with
  | .edge _ _ => r.kind.isDirected
  | .point _ => r.kind.isSpatial && !r.kind.isDirected
  | .placeless => !r.kind.isSpatial

end EntityRecord

end RailAtlas
