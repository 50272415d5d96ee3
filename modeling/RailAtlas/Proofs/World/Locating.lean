import RailAtlas.Proofs.Index.Residue
import RailAtlas.Proofs.Registry.Queries
import RailAtlas.Proofs.World.Viewport

/-!
# Where points are located

A point is located by a descent that never turns back. Whatever point is asked for, inside the world
or not and even without a place on the axes, the descent comes to an end, and what it finds holds
the point together with all that is above it. The converse needs that on the way no two quadrants
hold the point.

In a world the descent that locates the point of an entity takes turns that indexing has taken, too,
so the cluster found holds the entity.
-/

namespace RailAtlas

/-- Clusters that all hold a point, each in one quadrant after the other, are on the descent of the
point. -/
theorem Branch.Sound.descent_of_covers {range : ScaleRange} {b : Branch} {c : Cluster} {p : Point}
    {path : List Quadrant}
    (h : b.Sound (range.maxScale - range.minScale).toNat (Tree.worldSquare range))
    (hc : b.at? path = some c) (covers : b.Covers path p) : Descent range p path := by
  induction path using List.reverseRecOn generalizing c with
  | nil => exact .root
  | append_singleton path q ih =>
    obtain ⟨d, hd⟩ :=
      Option.isSome_iff_exists.mp (isSome_at?_of_append (Option.isSome_of_eq_some hc))
    refine .quadrant (ih hd fun front e hfront => ?_) ?_ ?_
    · exact covers front e (hfront.trans (List.prefix_append path [q]))
    · have bounded := h.bounded hc
      rw [List.length_append, List.length_singleton] at bounded
      rw [scale_along_worldSquare]
      omega
    · rw [← h.placed hc]
      exact covers _ c List.prefix_rfl hc

namespace Tree

variable {range : ScaleRange} {t : Tree} {c : Cluster} {path : List Quadrant} {p : Point}
variable {scale : Int}

/-- What is true of a cluster and all that is above it is true on the way to its place. -/
theorem Labelled.forall_above_iff (h : t.Labelled) (distinct : t.root.labels.Nodup)
    (hc : t.root.at? path = some c) {P : ClusterId → Cluster → Prop} :
    (∀ x d, t.Above x c.id → t.cluster? x = some d → P x d) ↔
      ∀ front d, front <+: path → t.root.at? front = some d → P d.id d := by
  constructor
  · intro above front d hfront hd
    exact above d.id d ((h.above_iff_prefix distinct hd hc).mpr hfront)
      ((cluster?_eq_some_iff distinct).mpr ⟨front, hd, rfl⟩)
  · intro way x d above hd
    obtain ⟨front, hfront, rfl⟩ := (cluster?_eq_some_iff distinct).mp hd
    exact way front d ((h.above_iff_prefix distinct hfront hc).mp above) hfront

/-- What locating a point at a scale finds. -/
structure Locates (t : Tree) (p : Point) (scale : Int) : Prop where
  /-- The descent from label to label comes to an end, and no label leads nowhere. -/
  ends : t.registry.locate p scale t.registry.fuel rootId = .ok ((t.locate? p scale).map (·.id))
  /-- What is found is registered and of the scale. It and all that is above it hold the point. -/
  found : ∀ c, t.locate? p scale = some c → t.cluster? c.id = some c ∧ c.square.scale = scale ∧
    ∀ x d, t.Above x c.id → t.cluster? x = some d → d.square.contains p = true
  /-- What is registered, of the scale, and holds the point as does all that is above it, is found
  unless two quadrants on the way hold the point. -/
  complete : ∀ id c, t.cluster? id = some c → c.square.scale = scale →
    (∀ x d, t.Above x id → t.cluster? x = some d → d.square.contains p = true) →
    (∀ x d, t.Above x id → t.cluster? x = some d → x ≠ id → d.square.Parts p) →
    t.locate? p scale = some c

theorem Labelled.locates (h : t.Labelled) (distinct : t.root.labels.Nodup) (p : Point)
    (scale : Int) : t.Locates p scale := by
  constructor
  case ends => exact h.registry_locate distinct p scale
  case found =>
    intro c hc
    obtain ⟨path, hpath, hscale, covers⟩ := Branch.exists_place_of_locate? hc
    exact ⟨(cluster?_eq_some_iff distinct).mpr ⟨path, hpath, rfl⟩, hscale,
      (h.forall_above_iff distinct hpath).mpr covers⟩
  case complete =>
    intro id c hid hscale holds parts
    obtain ⟨path, hc, rfl⟩ := (cluster?_eq_some_iff distinct).mp hid
    have way := (h.forall_above_iff distinct hc).mp parts
    rw [← hscale]
    refine h.sound.locate?_eq_some hc ((h.forall_above_iff distinct hc).mp holds) ?_
    intro front d hfront apart hd
    exact way front d hfront hd fun same => apart (Branch.path_eq_of_nodup distinct hd hc same)

end Tree

namespace World

variable {range : ScaleRange} {w : World} {id : EntityId} {r : EntityRecord} {p : Point}

/-- What is located for the point of an entity holds the entity. -/
theorem Reachable.holds_of_locate? (h : Reachable range w) (known : w.get? id = some r)
    (spatial : r.kind.isSpatial = true) (hp : w.anchor? r = some p) {scale : Int} {c : Cluster}
    (found : w.index.locate? p scale = some c) : c.holds r.owner id = true := by
  obtain ⟨path, hc, -, covers⟩ := Branch.exists_place_of_locate? found
  have sound := h.mirrored.anchored.sound
  rw [h.range_index] at sound
  have held : (w.index.root.memberAt? path r.owner id).isSome :=
    (h.isSome_memberAt?_iff known spatial hp).mpr ⟨rfl, sound.descent_of_covers hc covers⟩
  rwa [Branch.memberAt?_of_at? hc, ← Cluster.holds_eq_isSome_member?] at held

/-- Locating agrees with every tree that calls lead to, for every point and every scale, and in
every world with what is indexed: each spatial entity is indexed at some point, and what is located
for this point, at whatever scale, holds the entity for its owner. -/
theorem locating_agrees :
    (∀ {range t}, Tree.Reachable range t → ∀ p scale, t.Locates p scale) ∧
    ∀ {range w}, Started range w → ∀ calls id r, (w.run calls).get? id = some r →
      r.kind.isSpatial = true → ∃ p, (w.run calls).anchor? r = some p ∧
        ∀ scale c, (w.run calls).index.locate? p scale = some c → c.holds r.owner id = true := by
  constructor
  · intro range t h p scale
    obtain ⟨labelled, before, -⟩ := h.labelled
    exact labelled.locates (labelled.nodup (Nat.le_of_lt before)) p scale
  · intro range w started calls id r known spatial
    have reachable := started.reachable.run calls
    obtain ⟨p, hp, -⟩ := reachable.integrity.exists_anchor known spatial
    exact ⟨p, hp, fun scale c => reachable.holds_of_locate? known spatial hp⟩

/-- The child in the south east is located for a point of its own, and so is the finest square of
a station. -/
theorem locating_agrees_station :
    let station : EntityRecord := ⟨.station, ⟨2⟩, .point ⟨1, 1⟩⟩
    (∃ t c, Tree.Reachable ⟨3, 2⟩ t ∧ t.cluster? ⟨1⟩ = some c ∧ t.locate? ⟨1, 1⟩ 2 = some c) ∧
    ∃ w, create .standard 7 = .ok w ∧ ∃ c,
      (w.run [.spawnWithId (.ofNat 1) station]).index.locate? ⟨1, 1⟩ 2 = some c ∧
        c.holds ⟨2⟩ (.ofNat 1) = true := by
  intro station
  constructor
  · let root : Cluster := .empty Tree.rootId (Tree.worldSquare ⟨3, 2⟩)
    let child : Cluster := .empty ⟨1⟩ (root.square.quadrant .southEast)
    let bare : Tree := { range := ⟨3, 2⟩, root := .leaf root, labels := ⟨1, 0⟩ }
    let grown : Tree :=
      { bare with root := .node root .absent .absent .absent (.leaf child), labels := ⟨2, 0⟩ }
    have admissible : bare.Admissible (.newChild Tree.rootId 1 1) :=
      ⟨_, .southEast, rfl, rfl, rfl, (by decide : (2 : Int) < 3), rfl⟩
    have reached : Tree.Reachable ⟨3, 2⟩ grown :=
      .answered (.created rfl) admissible rfl (by decide)
    have listed {x d} (hd : grown.cluster? x = some d) : d ∈ grown.root.clusters ∧ d.id = x := by
      obtain ⟨path, hpath, same⟩ := (Tree.cluster?_eq_some_iff (by decide +kernel)).mp hd
      exact ⟨Branch.mem_clusters_iff.mpr ⟨path, hpath⟩, same⟩
    have holds : ∀ d ∈ grown.root.clusters, d.square.contains ⟨1, 1⟩ = true := by decide +kernel
    have parts : ∀ d ∈ grown.root.clusters, d.id ≠ ⟨1⟩ → ∀ q ∈ Quadrant.all,
        ∀ r ∈ Quadrant.all, (d.square.quadrant q).contains ⟨1, 1⟩ = true →
          (d.square.quadrant r).contains ⟨1, 1⟩ = true → q = r := by
      decide +kernel
    refine ⟨grown, child, reached, rfl, ?_⟩
    refine (locating_agrees.1 reached ⟨1, 1⟩ 2).complete ⟨1⟩ child rfl rfl ?_ ?_
    · intro x d _ hd
      exact holds d (listed hd).1
    · intro x d _ hd other q r
      exact parts d (listed hd).1 ((listed hd).2 ▸ other) q q.mem_all r r.mem_all
  · have created : create .standard 7 = .ok _ := rfl
    obtain ⟨p, hp, held⟩ := locating_agrees.2 (.created created)
      [.spawnWithId (.ofNat 1) station] (.ofNat 1) station rfl rfl
    obtain rfl : ⟨1, 1⟩ = p := Option.some.inj hp
    refine ⟨_, created, (Option.isSome_iff_exists.mp ?found).imp fun c hc => ⟨hc, held 2 c hc⟩⟩
    decide +kernel

end World

end RailAtlas
