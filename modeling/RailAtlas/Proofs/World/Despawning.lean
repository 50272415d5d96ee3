import RailAtlas.Proofs.World.InPlace
import RailAtlas.Proofs.World.Mirror

/-!
# What a despawn takes out

Despawning a rail node takes its edges along, whoever owns them, and despawning anything else takes
out that entity alone. `Departs` says who goes, in terms of the registry before the despawn, and
`Departed` says what has become of the world: those that go are gone from the registry and from
every bucket, and nothing has changed for the others.
-/

namespace RailAtlas

/-- The entities to which a record refers are the ends of an edge. -/
theorem EntityRecord.touches_iff {r : EntityRecord} {node : EntityId} : r.touches node = true ↔
    ∃ origin target, r.shape = .edge origin target ∧ (origin = node ∨ target = node) := by
  rw [touches]
  cases r.shape with
  | point p => simp
  | placeless => simp
  | edge origin target =>
    simp only [Bool.or_eq_true, beq_iff_eq, Shape.edge.injEq]
    constructor
    · exact fun ends => ⟨origin, target, ⟨rfl, rfl⟩, ends⟩
    · rintro ⟨_, _, ⟨rfl, rfl⟩, ends⟩
      exact ends

namespace World

variable {w u w₀ : World} {range : ScaleRange} {id x : EntityId} {r : EntityRecord}
variable {path : List Quadrant} {owner : OwnerId}

/-- An entity that goes when another one is despawned: that one itself and, if it is a rail node,
every edge that starts or ends there. -/
def Departs (w : World) (id x : EntityId) : Prop :=
  x = id ∨ w.IsNode id ∧ ∃ edge origin target, w.get? x = some edge ∧
    edge.shape = .edge origin target ∧ (origin = id ∨ target = id)

/-- What has become of a world when an entity has been despawned. -/
structure Departed (w u : World) (id : EntityId) : Prop where
  /-- Those that go are registered no more. -/
  gone : ∀ x, w.Departs id x → u.get? x = none
  /-- All others keep their records. -/
  kept : ∀ x, ¬ w.Departs id x → u.get? x = w.get? x
  /-- No record refers to the entity any more. -/
  unreferenced : ∀ x edge origin target, u.get? x = some edge →
    edge.shape = .edge origin target → origin ≠ id ∧ target ≠ id
  /-- No bucket of any cluster holds one of those that go. -/
  unlisted : ∀ c ∈ u.index.root.clusters, ∀ owner x, w.Departs id x → c.holds owner x = false
  /-- Every bucket holds what it held of the others. -/
  undisturbed : ∀ path owner x, ¬ w.Departs id x →
    u.index.root.memberAt? path owner x = w.index.root.memberAt? path owner x

/-- Those that go are the entity and its dependants. -/
theorem departs_iff (known : w.get? id = some r) :
    w.Departs id x ↔ x = id ∨ x ∈ w.dependants id r := by
  rw [Departs, dependants]
  apply or_congr_right
  split
  · next node =>
    rw [mem_touching]
    simp only [EntityRecord.touches_iff]
    constructor
    · rintro ⟨-, edge, origin, target, hedge, ends⟩
      exact ⟨edge, hedge, origin, target, ends⟩
    · rintro ⟨edge, hedge, origin, target, ends⟩
      exact ⟨⟨r, known, node⟩, edge, origin, target, hedge, ends⟩
  · next other =>
    refine iff_of_false ?_ List.not_mem_nil
    rintro ⟨⟨node, hnode, kind⟩, -⟩
    rw [Option.some.inj (hnode.symm.trans known)] at kind
    exact other kind

/-- In a world of integrity, whatever refers to an entity goes with it. -/
theorem Integrity.departs_of_touches (sound : w.Integrity) (hr : w.get? x = some r)
    (touches : r.touches id = true) : w.Departs id x := by
  obtain ⟨origin, target, ends⟩ := EntityRecord.touches_iff.mp touches
  exact .inr ⟨(sound hr).2.isNode_of_touches touches, r, origin, target, hr, ends⟩

/-- The registry after a despawn. -/
theorem Integrity.get?_despawn (sound : w.Integrity) (known : w.get? id = some r)
    [Decidable (w.Departs id x)] :
    (((w.dependants id r).foldl World.retire w).retire id).get? x =
      if w.Departs id x then none else w.get? x := by
  rw [get?_retire, (steps_foldl_retire _ fun y hy =>
    sound.unreferenced_of_mem_dependants known hy).2]
  simp only [departs_iff known]
  by_cases hx : x = id <;> simp [hx]

/-- The ends of an edge that stays, stay: an end that went would be the despawned node, with which
the edge would have gone, or an edge, to which nothing refers. -/
theorem Integrity.stays_of_touches (sound : w.Integrity) (stays : ¬ w.Departs id x)
    (hr : w.get? x = some r) {n : EntityId} (touches : r.touches n = true) :
    ¬ w.Departs id n := by
  rintro (rfl | ⟨-, edge, origin, target, hedge, hshape, -⟩)
  · exact stays (sound.departs_of_touches hr touches)
  · obtain ⟨node, hnode, kind⟩ := (sound hr).2.isNode_of_touches touches
    obtain rfl := Option.some.inj (hnode.symm.trans hedge)
    obtain ⟨p, located⟩ := exists_point_of_railNode (sound hedge).1 kind
    rw [located] at hshape
    cases hshape

/-- Without a record nothing is held in the index. -/
theorem Mirrored.holds_eq_false (mirrored : w.Mirrored) {c : Cluster}
    (hc : c ∈ w.index.root.clusters) (absent : w.get? x = none) : c.holds owner x = false := by
  obtain ⟨path, hpath⟩ := Branch.mem_clusters_iff.mp hc
  rw [Cluster.holds_eq_isSome_member?, ← Branch.memberAt?_of_at? hpath]
  change (w.index.contents path owner x).isSome = false
  rw [mirrored.contents, mirror_of_none absent, Option.isSome_none]

/-- In every world of every run, despawning a registered entity gives the record that it had and
takes out exactly the entity and, if it is a rail node, the edges at it. It does so in place, too,
where it calls itself for each edge. -/
theorem despawn_takes_dependants (started : Started range w₀) (calls : List Call)
    (known : (w₀.run calls).get? id = some r) :
    ∃ u, (w₀.run calls).despawn id = .ok (r, u) ∧
      (∀ depth, (despawnInPlace (depth + 2) id).on (w₀.run calls) = some (.ok r, u)) ∧
      Departed (w₀.run calls) u id := by
  classical
  have reachable := started.reachable.run calls
  generalize w₀.run calls = w at known reachable ⊢
  have sound := reachable.integrity
  have despawned :
      w.despawn id = .ok (r, ((w.dependants id r).foldl World.retire w).retire id) := by
    rw [despawn, known]
  have hget := fun x => @Integrity.get?_despawn w id x r sound known _
  generalize ((w.dependants id r).foldl World.retire w).retire id = u at despawned hget
  obtain ⟨events, hsteps⟩ := steps_despawn sound despawned
  have reached : Reachable range u := reachable.steps hsteps
  have gone : ∀ x, w.Departs id x → u.get? x = none := fun x departs => by
    rw [hget, if_pos departs]
  have kept : ∀ x, ¬ w.Departs id x → u.get? x = w.get? x := fun x stays => by
    rw [hget, if_neg stays]
  refine ⟨u, despawned, fun depth => ?_, gone, kept, ?_, ?_, ?_⟩
  · rw [sound.on_despawnInPlace, despawned, settle]
  · intro x edge origin target hedge hshape
    have stays : ¬ w.Departs id x := fun departs => by
      rw [gone x departs] at hedge
      cases hedge
    rw [kept x stays] at hedge
    rw [← not_or]
    intro ends
    exact stays (sound.departs_of_touches hedge
      (EntityRecord.touches_iff.mpr ⟨origin, target, hshape, ends⟩))
  · intro c hc owner x departs
    exact reached.mirrored.holds_eq_false hc (gone x departs)
  · intro path owner x stays
    change u.index.contents path owner x = w.index.contents path owner x
    rw [reached.mirrored.contents, reachable.mirrored.contents]
    refine mirror_eq_of_kept (reached.range_index.trans reachable.range_index.symm)
      (kept x stays) ?_
    intro s n hs touches
    exact kept n (sound.stays_of_touches stays hs touches)

/-- A node goes with a loop, and with an edge of another owner to a node that stays. -/
theorem despawn_takes_dependants_junction :
    let node (x : Float) : EntityRecord := ⟨.railNode, ⟨2⟩, .point ⟨x, 1⟩⟩
    let edge (owner : OwnerId) (origin target : EntityId) : EntityRecord :=
      ⟨.railEdge, owner, .edge origin target⟩
    let calls : List Call := [.spawnWithId (.ofNat 1) (node 1), .spawnWithId (.ofNat 2) (node 2),
      .spawnWithId (.ofNat 3) (edge ⟨2⟩ (.ofNat 1) (.ofNat 1)),
      .spawnWithId (.ofNat 4) (edge ⟨5⟩ (.ofNat 2) (.ofNat 1))]
    ∃ w, create .standard 7 = .ok w ∧ (w.run calls).get? (.ofNat 1) = some (node 1) ∧
      ∃ u, (w.run calls).despawn (.ofNat 1) = .ok (node 1, u) ∧
        (∀ depth, (despawnInPlace (depth + 2) (.ofNat 1)).on (w.run calls) =
          some (.ok (node 1), u)) ∧
        Departed (w.run calls) u (.ofNat 1) := by
  intro node edge calls
  have created : create .standard 7 = .ok _ := rfl
  refine ⟨_, created, ?known, despawn_takes_dependants (.created created) calls ?known⟩
  decide +kernel

end World

end RailAtlas
