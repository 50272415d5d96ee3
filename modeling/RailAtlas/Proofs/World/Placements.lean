import RailAtlas.Proofs.World.Mirror

/-!
# Where the entities of a world are

Edges refer to other records by their identifiers, so what is known of an edge depends on records
that other operations change. `Integrity` bears this: whatever becomes of a world, every record is
well formed and fits. Read as positions, it says that every spatial entity has a place inside the
world and that every edge leads from one such place to another.
-/

namespace RailAtlas

/-- A point is finite and lies in the world square. -/
structure ScaleRange.Encloses (range : ScaleRange) (p : Point) : Prop where
  finite : p.isFinite = true
  inside : (Tree.worldSquare range).contains p = true

namespace World

variable {range : ScaleRange} {w : World} {id : EntityId} {r : EntityRecord} {p : Point}

/-- What the records of a world over the given scales say about the places of its entities. -/
structure Settled (range : ScaleRange) (w : World) : Prop where
  /-- The shape of every record fits its kind. -/
  formed : ∀ id r, w.get? id = some r → r.isWellFormed = true
  /-- Entities with a point of their own are inside the world. -/
  enclosed : ∀ id r p, w.get? id = some r → r.shape = .point p → range.Encloses p
  /-- Both ends of an edge are registered rail nodes with a point. -/
  joined : ∀ id r origin target, w.get? id = some r → r.shape = .edge origin target →
    ∀ n ∈ [origin, target], ∃ node p, w.get? n = some node ∧ node.kind = .railNode ∧
      node.shape = .point p
  /-- Every spatial entity is placed at a point inside the world. -/
  placed : ∀ id r, w.get? id = some r → r.kind.isSpatial = true →
    ∃ placement p, w.placement? id = some placement ∧ placement.point = some p ∧ range.Encloses p
  /-- Every edge is placed at the point of its origin and leads to the point of its target, and
  both are inside the world. -/
  directed : ∀ id r origin target, w.get? id = some r → r.shape = .edge origin target →
    ∃ placement p q, w.placement? id = some placement ∧ placement.point = some p ∧
      placement.target = some q ∧ w.positionOf? origin = some p ∧ w.positionOf? target = some q ∧
      range.Encloses p ∧ range.Encloses q

theorem encloses_of_containsPoint (hrange : w.index.range = range)
    (h : w.containsPoint p = true) : range.Encloses p := by
  rw [containsPoint, Bool.and_eq_true, hrange] at h
  exact ⟨h.1, h.2⟩

theorem placement?_of_some (known : w.get? id = some r) :
    w.placement? id = some
      { id, owner := r.owner, kind := r.kind, point := w.anchor? r, target := w.leadsTo? r } := by
  rw [placement?, known, Option.map_some, placementOf_eq]

/-- Integrity settles where the entities are. -/
theorem Integrity.settled (sound : w.Integrity) (hrange : w.index.range = range) :
    Settled range w := by
  have enclosed {p : Point} (h : w.containsPoint p = true) : range.Encloses p :=
    encloses_of_containsPoint hrange h
  constructor
  case formed => exact fun id r known => (sound known).1
  case enclosed =>
    intro id r p known located
    have fits := (sound known).2
    rw [located] at fits
    exact enclosed fits
  case joined =>
    intro id r origin target known joins n hn
    obtain ⟨-, fits⟩ := sound known
    rw [joins] at fits
    have node : w.IsNode n := by
      obtain rfl | rfl : n = origin ∨ n = target := by simpa using hn
      · exact fits.1
      · exact fits.2
    obtain ⟨node, hnode, kind⟩ := node
    obtain ⟨p, located⟩ := exists_point_of_railNode (sound hnode).1 kind
    exact ⟨node, p, hnode, kind, located⟩
  case placed =>
    intro id r known spatial
    obtain ⟨p, anchored, inside⟩ := sound.exists_anchor known spatial
    exact ⟨_, p, placement?_of_some known, anchored, enclosed inside⟩
  case directed =>
    intro id r origin target known joins
    obtain ⟨-, fits⟩ := sound known
    rw [joins] at fits
    obtain ⟨p, hp, inside⟩ := sound.exists_position fits.1
    obtain ⟨q, hq, inside'⟩ := sound.exists_position fits.2
    refine ⟨_, p, q, placement?_of_some known, ?_, ?_, hp, hq, enclosed inside, enclosed inside'⟩
    · simpa [anchor?, joins] using hp
    · simpa [leadsTo?, joins] using hq

/-- In every world of every run, each record is well formed, points are inside the world, and edges
join registered rail nodes. So every spatial entity is placed inside the world, and every edge
leads to a place inside it. -/
theorem settled_of_run (started : Started range w) (calls : List Call) :
    Settled range (w.run calls) := by
  have reachable := started.reachable.run calls
  exact reachable.integrity.settled reachable.range_index

/-- A loop at a rail node leads to where the node was moved. -/
theorem settled_of_run_loop :
    let calls : List Call := [.spawnWithId (.ofNat 1) ⟨.railNode, ⟨2⟩, .point ⟨1, 1⟩⟩,
      .spawnWithId (.ofNat 2) ⟨.railEdge, ⟨2⟩, .edge (.ofNat 1) (.ofNat 1)⟩,
      .moveTo (.ofNat 1) ⟨-1, 1⟩]
    ∃ w placement, create .standard 7 = .ok w ∧
      (w.run calls).placement? (.ofNat 2) = some placement ∧
      placement.target = some ⟨-1, 1⟩ ∧ ScaleRange.standard.Encloses ⟨-1, 1⟩ := by
  intro calls
  have created : create .standard 7 = .ok _ := rfl
  have settled := settled_of_run (.created created) calls
  obtain ⟨placement, p, q, placed, -, leads, -, hq, -, inside⟩ :=
    settled.directed (.ofNat 2) ⟨.railEdge, ⟨2⟩, .edge (.ofNat 1) (.ofNat 1)⟩ (.ofNat 1) (.ofNat 1)
      (by decide +kernel) rfl
  obtain rfl : ⟨-1, 1⟩ = q := Option.some.inj (.trans (by decide +kernel) hq)
  exact ⟨_, placement, created, placed, leads, inside⟩

end World

end RailAtlas
