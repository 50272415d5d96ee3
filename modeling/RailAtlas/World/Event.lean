import RailAtlas.Entity.Record
import RailAtlas.Ident.Text
import RailAtlas.Index.ScaleRange

/-!
# Events and errors of the world

Every change of the world is recorded as an event that carries enough to be made again. A refused
operation records nothing and says why.
-/

namespace RailAtlas

inductive Event where
  | spawned (id : EntityId) (record : EntityRecord)
  | despawned (id : EntityId) (record : EntityRecord)
  | moved (id : EntityId) (before after : Point)
  | stepped (tick seed : UInt64)
deriving DecidableEq

def Event.isStep : Event → Bool
  | stepped _ _ => true
  | _ => false

inductive WorldError where
  | unknownEntity (id : EntityId)
  | duplicateEntity (id : EntityId)
  | shapeMismatch (kind : EntityKind)
  | notANode (id : EntityId)
  | immovable (id : EntityId)
  | outOfWorld (point : Point)
  | ownerHasEntities (owner : OwnerId) (count : Nat)
  | index (cause : IndexError)
deriving DecidableEq

def WorldError.message : WorldError → String
  | unknownEntity id => s!"unknown entity {id.render}"
  | duplicateEntity id => s!"entity {id.render} already exists"
  | shapeMismatch kind => s!"shape does not fit a {kind.name}"
  | notANode id => s!"entity {id.render} is not a rail node"
  | immovable id => s!"entity {id.render} cannot be moved"
  | outOfWorld point => s!"{point.render} is outside the world"
  | ownerHasEntities owner count => s!"{owner.render} still owns {count} entities"
  | index cause => cause.message

end RailAtlas
