import RailAtlas.Json.Record
import RailAtlas.Json.Writer
import RailAtlas.Json.Reader
import RailAtlas.World.Event

/-!
# Events as JSON

The interchange form of the event log. Identifiers are written hyphenated and read in every
spelling; coordinates use the fewest digits that read back.
-/

namespace RailAtlas

namespace EntityId

def toJson (id : EntityId) : Json :=
  .text id.render

def ofJson? (j : Json) : Option EntityId :=
  j.text?.bind parse?

end EntityId

namespace EntityKind

/-- A kind as JSON: its full name. -/
def toJson (k : EntityKind) : Json :=
  .text k.name

def ofJson? (j : Json) : Option EntityKind := do
  let (name, content) ← j.alternative?
  if Json.isVoid content then ofName? name else none

end EntityKind

namespace OwnerId

/-- An owner as JSON: the account number. -/
def toJson (o : OwnerId) : Json :=
  .ofNat o.number.toNat

def ofJson? (j : Json) : Option OwnerId :=
  j.uint64?.map OwnerId.mk

end OwnerId

namespace Point

def toJson (p : Point) : Json :=
  .record [("x", .ofFloat p.x), ("y", .ofFloat p.y)]

def ofJson? (j : Json) : Option Point := do
  match ← j.parts? ["x", "y"] with
  | [x, y] => return { x := ← x.float?, y := ← y.float? }
  | _ => none

end Point

namespace Shape

def toJson : Shape → Json
  | .point p => Json.tagged "Point" p.toJson
  | .edge origin target =>
    Json.tagged "Edge" (.record [("from", origin.toJson), ("to", target.toJson)])
  | .placeless => .text "Abstract"

def ofJson? (j : Json) : Option Shape := do
  match ← j.alternative? with
  | ("Point", some content) => return .point (← Point.ofJson? content)
  | ("Edge", some content) =>
    match ← content.parts? ["from", "to"] with
    | [origin, target] => return .edge (← EntityId.ofJson? origin) (← EntityId.ofJson? target)
    | _ => none
  | ("Abstract", content) => if Json.isVoid content then some .placeless else none
  | _ => none

end Shape

namespace EntityRecord

def toJson (r : EntityRecord) : Json :=
  .record [("kind", r.kind.toJson), ("owner", r.owner.toJson), ("shape", r.shape.toJson)]

def ofJson? (j : Json) : Option EntityRecord := do
  match ← j.parts? ["kind", "owner", "shape"] with
  | [kind, owner, shape] =>
    return {
      kind := ← EntityKind.ofJson? kind
      owner := ← OwnerId.ofJson? owner
      shape := ← Shape.ofJson? shape }
  | _ => none

end EntityRecord

namespace Event

def toJson : Event → Json
  | .spawned id r => Json.tagged "Spawned" (.record [("id", id.toJson), ("record", r.toJson)])
  | .despawned id r => Json.tagged "Despawned" (.record [("id", id.toJson), ("record", r.toJson)])
  | .moved id before after =>
    Json.tagged "Moved"
      (.record [("id", id.toJson), ("old", before.toJson), ("new", after.toJson)])
  | .stepped tick seed =>
    Json.tagged "Stepped" (.record [("tick", .ofNat tick.toNat), ("seed", .ofNat seed.toNat)])

/-- Read the identifier and record of a spawned or despawned entity. -/
def idAndRecord? (content : Json) : Option (EntityId × EntityRecord) := do
  match ← content.parts? ["id", "record"] with
  | [id, r] => return (← EntityId.ofJson? id, ← EntityRecord.ofJson? r)
  | _ => none

def ofJson? (j : Json) : Option Event := do
  match ← j.alternative? with
  | ("Spawned", some content) =>
    let (id, r) ← idAndRecord? content
    return .spawned id r
  | ("Despawned", some content) =>
    let (id, r) ← idAndRecord? content
    return .despawned id r
  | ("Moved", some content) =>
    match ← content.parts? ["id", "old", "new"] with
    | [id, before, after] =>
      return .moved (← EntityId.ofJson? id) (← Point.ofJson? before) (← Point.ofJson? after)
    | _ => none
  | ("Stepped", some content) =>
    match ← content.parts? ["tick", "seed"] with
    | [tick, seed] => return .stepped (← tick.uint64?) (← seed.uint64?)
    | _ => none
  | _ => none

def render (e : Event) : String :=
  e.toJson.compact

def parse? (text : String) : Option Event :=
  (Json.parse? text).bind ofJson?

end Event

end RailAtlas
