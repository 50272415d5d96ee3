import RailAtlas.Proofs.Index.Calls

/-!
# Clusters in a registry

A registry keeps every cluster under its label, together with the labels of its parent and its
children. It does what a tree does, but a link is only a label here: it has to be looked up, it may
lead nowhere, and both ends have to be kept in step. Whatever may go wrong on the way is a
`WiringFault`.

Nothing in the registry bounds its depth, so descents are given fuel, and to run out of it is a
fault, too.
-/

namespace RailAtlas

/-- What may be wrong with the links of a registry. -/
inductive WiringFault where
  /-- A label leads nowhere. -/
  | missing (id : ClusterId)
  /-- A cluster of the finest scale is to have a child. -/
  | finest (id : ClusterId)
  /-- A quadrant is to have two children. -/
  | childExists (id : ClusterId) (q : Quadrant)
  /-- An owner is to have two chunks in one cluster. -/
  | chunkExists (id : ClusterId) (owner : OwnerId)
  /-- A cluster is to be taken from a parent that does not have it. -/
  | notAChild (parent child : ClusterId)
  /-- A direction is neither of `-1` and `1`. -/
  | badDirection (direction : Int)
  /-- There are more levels than scales. -/
  | tooDeep

namespace ClusterEntry

def setSlot (e : ClusterEntry) (q : Quadrant) (label : Option ClusterId) : ClusterEntry :=
  match q with
  | .northWest => { e with northWest := label }
  | .northEast => { e with northEast := label }
  | .southWest => { e with southWest := label }
  | .southEast => { e with southEast := label }

def children (e : ClusterEntry) : List ClusterId :=
  Quadrant.all.filterMap e.slot

end ClusterEntry

/-- Clusters and their links by label, and the counters for labels. -/
structure Registry where
  range : ScaleRange
  entries : ClusterId → Option ClusterEntry
  labels : Labels

namespace Registry

def get (r : Registry) (id : ClusterId) : Except WiringFault ClusterEntry :=
  match r.entries id with
  | some e => .ok e
  | none => .error (.missing id)

/-- Register an entry under the label of its cluster, in place of what was there. -/
def put (r : Registry) (e : ClusterEntry) : Registry :=
  { r with entries := fun id => if id = e.cluster.id then some e else r.entries id }

def drop (r : Registry) (id : ClusterId) : Registry :=
  { r with entries := fun x => if x = id then none else r.entries x }

def splits (r : Registry) (scale : Int) : Bool :=
  decide (r.range.minScale < scale)

/-- Enough fuel for a descent through all scales. -/
def fuel (r : Registry) : Nat :=
  (r.range.maxScale - r.range.minScale).toNat + 1

variable {r : Registry} {e d : ClusterEntry} {id : ClusterId}

theorem get_eq (h : r.entries id = some e) : r.get id = .ok e := by
  rw [get, h]

/-- Of two entries that are registered under one label the later one counts. -/
theorem put_put (h : e.cluster.id = d.cluster.id) : (r.put e).put d = r.put d := by
  simp only [put, mk.injEq, true_and, and_true]
  funext id
  split
  · rfl
  · next other => rw [if_neg (h ▸ other)]

theorem entries_put_self (id : ClusterId) (h : id = e.cluster.id) :
    (r.put e).entries id = some e :=
  if_pos h

/-! ### Making clusters -/

/-- Make an empty cluster in one quadrant of another and link the two. -/
def newChild (r : Registry) (parent : ClusterId) (dx dy : Int) :
    Except WiringFault (ClusterId × Registry) := do
  let e ← r.get parent
  if !r.splits e.cluster.square.scale then .error (.finest parent)
  else
    match Quadrant.ofDirections dx dy with
    | .error direction => .error (.badDirection direction)
    | .ok q =>
      match e.slot q with
      | some _ => .error (.childExists parent q)
      | none =>
        let (id, labels) := r.labels.takeCluster
        let child : ClusterEntry :=
          { cluster := .empty id (e.cluster.square.quadrant q), parent := some parent
            northWest := none, northEast := none, southWest := none, southEast := none }
        .ok (id, ({ r with labels }.put (e.setSlot q (some id))).put child)

def childAt (r : Registry) (id : ClusterId) (q : Quadrant) :
    Except WiringFault (ClusterId × Registry) := do
  let e ← r.get id
  match e.slot q with
  | some child => .ok (child, r)
  | none => r.newChild id q.dx q.dy

/-! ### Indexing an entity -/

/-- Give an owner an empty chunk in a cluster. -/
def resolve (r : Registry) (id : ClusterId) (chunk : Chunk) : Except WiringFault Registry := do
  let e ← r.get id
  match e.cluster.bucket? chunk.owner with
  | some _ => .error (.chunkExists id chunk.owner)
  | none => .ok (r.put { e with cluster := e.cluster.setBucket chunk })

/-- Give an owner an empty chunk in a cluster, unless there is one. -/
def furnish (r : Registry) (id : ClusterId) (owner : OwnerId) : Except WiringFault Registry := do
  let e ← r.get id
  match e.cluster.bucket? owner with
  | some _ => .ok r
  | none =>
    let (chunk, labels) := r.labels.takeChunk
    Registry.resolve { r with labels } id (.empty chunk owner id e.cluster.square)

/-- Record a member in the chunk of an owner, if there is one. -/
def enroll (r : Registry) (id : ClusterId) (owner : OwnerId) (entity : EntityId) (m : Member) :
    Except WiringFault Registry := do
  let e ← r.get id
  match e.cluster.bucket? owner with
  | none => .ok r
  | some chunk =>
    .ok (r.put { e with cluster := e.cluster.file owner (chunk.insert entity m) })

/-- Index a member in a cluster and in every quadrant below it that holds the member's point. -/
def insert (owner : OwnerId) (entity : EntityId) (m : Member) :
    (fuel : Nat) → ClusterId → Registry → Except WiringFault Registry
  | 0, _, _ => .error .tooDeep
  | fuel + 1, id, r => do
    let e ← r.get id
    let r ← r.furnish id owner
    let r ← r.enroll id owner entity m
    if !r.splits e.cluster.square.scale then .ok r
    else
      Quadrant.all.foldlM (fun r q =>
        if (e.cluster.square.quadrant q).contains m.point then do
          let (child, r) ← r.childAt id q
          insert owner entity m fuel child r
        else .ok r) r

/-! ### Deleting clusters -/

/-- Take a cluster out of the quadrant in which its parent has it. -/
def unlink (r : Registry) (id : ClusterId) : Except WiringFault Registry := do
  let e ← r.get id
  match e.parent with
  | none => .ok r
  | some parent =>
    let above ← r.get parent
    match Quadrant.all.find? fun q => above.slot q == some id with
    | none => .error (.notAChild parent id)
    | some q => .ok (r.put (above.setSlot q none))

def destroy : (fuel : Nat) → ClusterId → Registry → Except WiringFault Registry
  | 0, _, _ => .error .tooDeep
  | fuel + 1, id, r => do
    let e ← r.get id
    let r ← e.children.foldlM (fun r child => destroy fuel child r) r
    let r ← r.unlink id
    .ok (r.drop id)

/-- Whether nothing is indexed in a cluster and below it. -/
def isBare (r : Registry) : (fuel : Nat) → ClusterId → Bool
  | 0, _ => false
  | fuel + 1, id =>
    match r.entries id with
    | none => false
    | some e => !e.cluster.hasData && e.children.all (r.isBare fuel)

/-! ### Removing an entity -/

/-- Those of some clusters that hold an entity. -/
def holders (r : Registry) (owner : OwnerId) (entity : EntityId) :
    List ClusterId → Except WiringFault (List ClusterId)
  | [] => .ok []
  | id :: rest => do
    let e ← r.get id
    let found ← r.holders owner entity rest
    .ok (if e.cluster.holds owner entity then id :: found else found)

/-- Take an entity out of a cluster and, in the given way, out of the holders below it. A chunk that
is left without members goes when the holders are done. -/
def strip (r : Registry) (below : ClusterId → Registry → Except WiringFault Registry)
    (owner : OwnerId) (entity : EntityId) (id : ClusterId) : Except WiringFault Registry := do
  let e ← r.get id
  let holders ← r.holders owner entity e.children
  match e.cluster.bucket? owner with
  | none => holders.foldlM (fun r child => below child r) r
  | some chunk =>
    let left := chunk.erase entity
    let r := r.put { e with cluster := e.cluster.file owner left }
    let r ← holders.foldlM (fun r child => below child r) r
    if !left.isEmpty then .ok r
    else do
      let e ← r.get id
      .ok (r.put { e with cluster := e.cluster.unfile owner })

/-- Take an entity out of a cluster and of the holders below it. A cluster that has a parent goes if
nothing is left in it or below it. -/
def scrub (owner : OwnerId) (entity : EntityId) :
    (fuel : Nat) → ClusterId → Registry → Except WiringFault Registry
  | 0, _, _ => .error .tooDeep
  | fuel + 1, id, r => do
    let r ← r.strip (scrub owner entity fuel) owner entity id
    let e ← r.get id
    if e.parent.isSome && !e.cluster.hasData && r.isBare (fuel + 1) id then destroy (fuel + 1) id r
    else .ok r

/-! ### Calls -/

def addFrom (r : Registry) (start : ClusterId) (p : Placement) : Except WiringFault Registry :=
  if !p.kind.isSpatial then .ok r
  else
    match p.position? with
    | none => .ok r
    | some position => insert p.owner p.id (p.member position) r.fuel start r

def removeFrom (r : Registry) (start : ClusterId) (p : Placement) : Except WiringFault Registry :=
  if !p.kind.isSpatial then .ok r
  else scrub p.owner p.id r.fuel start r

/-- Index an entity anew from a cluster down, or from the root if the cluster has gone. -/
def updateFrom (r : Registry) (start : ClusterId) (p : Placement) :
    Except WiringFault Registry := do
  let rest ← r.removeFrom start p
  if (rest.entries start).isSome then rest.addFrom start p else rest.addFrom Tree.rootId p

/-- The registry after a call, or the fault that it runs into. A deletion that is refused changes
nothing. -/
def answer (r : Registry) : TreeCall → Except WiringFault Registry
  | .newChild parent dx dy => (r.newChild parent dx dy).map (·.2)
  | .add p => r.addFrom Tree.rootId p
  | .addFrom start p => r.addFrom start p
  | .remove p => r.removeFrom Tree.rootId p
  | .removeFrom start p => r.removeFrom start p
  | .update p => r.updateFrom Tree.rootId p
  | .updateFrom start p => r.updateFrom start p
  | .delete id =>
    if id = Tree.rootId then .ok r
    else
      match r.entries id with
      | none => .ok r
      | some _ => destroy r.fuel id r

/-! ### Quadrants in turn -/

/-- What is done for all quadrants is done for one after the other. -/
theorem foldlM_all {step : Registry → Quadrant → Except WiringFault Registry}
    {r₀ r₁ r₂ r₃ r₄ : Registry} (nw : step r₀ .northWest = .ok r₁)
    (ne : step r₁ .northEast = .ok r₂) (sw : step r₂ .southWest = .ok r₃)
    (se : step r₃ .southEast = .ok r₄) : Quadrant.all.foldlM step r₀ = .ok r₄ := by
  simp only [Quadrant.all, List.foldlM_cons, List.foldlM_nil, nw, ne, sw, se, bind, Except.bind]
  rfl

end Registry

end RailAtlas
