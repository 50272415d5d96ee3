import RailAtlas.Index.View
import RailAtlas.Json.Event

/-!
# Views as JSON

The interchange form of what a viewport shows: the entries under their identifiers in ascending
order, then sources, delegates and edge delegates in the order in which they were gathered.
-/

namespace RailAtlas

def ChunkId.toJson (c : ChunkId) : Json :=
  .ofNat c.number.toNat

def ClusterId.toJson (c : ClusterId) : Json :=
  .ofNat c.number.toNat

def membersJson (members : List EntityId) : Json :=
  .array (members.map EntityId.toJson)

def ViewEntry.toJson (e : ViewEntry) : Json :=
  .record
    [("id", e.id.toJson), ("owner", e.owner.toJson), ("kind", e.kind.toJson),
      ("point", e.point.toJson), ("scale", .ofInt e.scale)]

def ViewSource.toJson (s : ViewSource) : Json :=
  .record
    [("cluster", s.cluster.toJson), ("chunk", s.chunk.toJson), ("owner", s.owner.toJson),
      ("scale", .ofInt s.scale)]

def Delegate.toJson (d : Delegate) : Json :=
  .record
    [("chunk", d.chunk.toJson), ("owner", d.owner.toJson), ("kind", d.kind.toJson),
      ("scale", .ofInt d.scale), ("point", d.point.toJson), ("members", membersJson d.members)]

def EdgeDelegate.toJson (d : EdgeDelegate) : Json :=
  .record
    [("chunk", d.chunk.toJson), ("owner", d.owner.toJson), ("scale", .ofInt d.scale),
      ("offset", .array [.ofInt d.offset.dx, .ofInt d.offset.dy]),
      ("peer_center", d.peerCenter.toJson),
      ("peer", match d.peer with | some peer => peer.toJson | none => .null),
      ("from", d.origin.toJson), ("to", d.target.toJson), ("members", membersJson d.members)]

namespace View

def toJson (v : View) : Json :=
  .record
    [("entries", .record (v.entryList.map fun e => (e.id.render, e.toJson))),
      ("sources", .array (v.sources.map ViewSource.toJson)),
      ("delegates", .array (v.delegates.map Delegate.toJson)),
      ("edge_delegates", .array (v.edges.map EdgeDelegate.toJson))]

def render (v : View) : String :=
  v.toJson.compact

end View

end RailAtlas
