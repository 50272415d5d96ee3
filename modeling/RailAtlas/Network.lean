import RailAtlas.World.Basic

/-!
# A reproducible rail network

A network is grown from a seed: rail nodes at drawn points, dealt to the owners in turn, and an edge
from each owner's previous node to the new one. Points are drawn from the central nine tenths of the
world square.
-/

namespace RailAtlas

/-- A drawn word as a number from zero up to one, with 53 binary places. -/
def unitInterval (word : UInt64) : Float :=
  Float.ofNat (word >>> 11).toNat / Float.ofNat (Nat.pow 2 53)

/-- A drawn word as a coordinate in the central nine tenths of a side. -/
def drawnCoordinate (word : UInt64) (half : Float) : Float :=
  (unitInterval word * 2 - 1) * half * 0.9

/-- Draw a point and give the state for the next draw. -/
def drawPoint (state : UInt64) (half : Float) : Point × UInt64 :=
  let a := splitMix state
  let b := splitMix a
  ({ x := drawnCoordinate a half, y := drawnCoordinate b half }, b)

/-- How large a network is, among how many owners it is dealt, and where it starts. -/
structure NetworkPlan where
  nodes : Nat
  owners : UInt64
  seed : UInt64
deriving DecidableEq

namespace NetworkPlan

def standard : NetworkPlan :=
  { nodes := 64, owners := 4, seed := 42 }

/-- The number of owners in play: at least one. -/
def ownerCount (p : NetworkPlan) : Nat :=
  max p.owners.toNat 1

/-- The greatest number of owners. Each takes 17 bytes of a table of at most `2 ^ 63 - 1` bytes. -/
def ownerLimit : Nat :=
  (Nat.pow 2 63 - 1) / 17

end NetworkPlan

inductive NetworkError where
  | world (cause : WorldError)
  | tooManyOwners
deriving DecidableEq

def NetworkError.message : NetworkError → String
  | world cause => cause.message
  | tooManyOwners => "capacity overflow"

/-- A network under construction: the world, the identifiers left, the state of the draws, and the
node that each owner placed last. -/
structure Network where
  world : World
  ids : IdStream
  state : UInt64
  last : Std.ExtTreeMap OwnerId EntityId

namespace Network

def spawn (n : Network) (r : EntityRecord) : Except WorldError (EntityId × Network) :=
  match n.world.spawn n.ids r with
  | (.error cause, _) => .error cause
  | (.ok (id, next), ids) => .ok (id, { n with world := next.value, ids })

/-- Place the node with a given number and link it to the one its owner placed before. -/
def placeNode (owners : Nat) (half : Float) (n : Network) (number : Nat) :
    Except WorldError Network := do
  let (point, state) := drawPoint n.state half
  let owner : OwnerId := ⟨UInt64.ofNat (number % owners)⟩
  let (node, n) ← { n with state }.spawn { kind := .railNode, owner, shape := .point point }
  let before := n.last[owner]?
  let n := { n with last := n.last.insert owner node }
  match before with
  | none => return n
  | some previous =>
    let (_, n) ← n.spawn { kind := .railEdge, owner, shape := .edge previous node }
    return n

/-- Place nodes with consecutive numbers, starting at `first`. -/
def placeNodes (owners : Nat) (half : Float) :
    (count first : Nat) → Network → Except WorldError Network
  | 0, _, n => .ok n
  | count + 1, first, n => do
    let n ← n.placeNode owners half first
    placeNodes owners half count (first + 1) n

/-- Grow a network in a new world. -/
def populate (range : ScaleRange) (plan : NetworkPlan) (ids : IdStream) :
    Except NetworkError Network :=
  match World.create range plan.seed with
  | .error cause => .error (.world cause)
  | .ok world =>
    if NetworkPlan.ownerLimit < plan.ownerCount then .error .tooManyOwners
    else
      (placeNodes plan.ownerCount (Tree.worldSquare range).half plan.nodes 0
        { world, ids, state := plan.seed, last := ∅ }).mapError .world

end Network

end RailAtlas
