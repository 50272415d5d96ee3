import Mathlib.Data.Set.Card
import RailAtlas.Proofs.World.Viewport

/-!
# What an owner has left

Before an owner goes, a world is asked whether anything spatial of this owner is left, in the
registry first and then in the index. The index never has more to say than the registry: a bucket
of an owner has a member, each member is registered for its owner, and a registered entity has a
bucket in the root cluster at least. So the buckets are looked at, but they decide nothing, and what
is counted are always the entities.
-/

namespace RailAtlas

namespace World

variable {range : ScaleRange} {w w₀ : World} {owner : OwnerId} {id : EntityId}

/-- A registered spatial entity of an owner. -/
def Owns (w : World) (owner : OwnerId) (id : EntityId) : Prop :=
  ∃ r, w.get? id = some r ∧ r.owner = owner ∧ r.kind.isSpatial = true

/-! ### Counting the registry -/

/-- The spatial entities of an owner, as the registry lists them. -/
def holdings (w : World) (owner : OwnerId) : List EntityId :=
  (w.entities.filter fun (_, r) => r.owner == owner && r.kind.isSpatial).map (·.1)

theorem mem_holdings : id ∈ w.holdings owner ↔ w.Owns owner id := by
  simp only [holdings, Owns, List.mem_map, List.mem_filter, Prod.exists, mem_entities,
    Bool.and_eq_true, beq_iff_eq]
  constructor
  · rintro ⟨x, r, ⟨known, mine⟩, rfl⟩
    exact ⟨r, known, mine⟩
  · rintro ⟨r, known, mine⟩
    exact ⟨id, r, ⟨known, mine⟩, rfl⟩

theorem coe_holdings : {id | w.Owns owner id} = ((w.holdings owner).toFinset : Set EntityId) := by
  ext id
  rw [Finset.mem_coe, List.mem_toFinset, mem_holdings, Set.mem_ofPred_eq]

theorem ncard_owns : {id | w.Owns owner id}.ncard = (w.holdings owner).length := by
  have distinct : (w.holdings owner).Nodup := nodup_filter_entities
  rw [coe_holdings, Set.ncard_coe_finset, List.toFinset_card_of_nodup distinct]

theorem finite_owns : {id | w.Owns owner id}.Finite := by
  rw [coe_holdings]
  exact Finset.finite_toSet _

theorem ncard_owns_pos_iff : 0 < {id | w.Owns owner id}.ncard ↔ ∃ id, w.Owns owner id :=
  Set.ncard_pos finite_owns

/-! ### Buckets -/

/-- A bucket of an owner has a member, which the registry knows. -/
theorem Mirrored.exists_owns (mirrored : w.Mirrored) {c : Cluster}
    (hc : c ∈ w.index.root.clusters) (filed : (c.bucket? owner).isSome) :
    ∃ id, w.Owns owner id := by
  obtain ⟨path, hpath⟩ := Branch.mem_clusters_iff.mp hc
  obtain ⟨id, held⟩ := (@Tree.Anchored.isSome_bucket?_iff _ path owner mirrored.anchored).mp
    (by rwa [hpath])
  obtain ⟨r, known, same, spatial⟩ := mirrored.owned held
  exact ⟨id, r, known, same.symm, spatial⟩

/-- Every spatial entity is in the root cluster. -/
theorem Reachable.exists_bucket (h : Reachable range w) (mine : w.Owns owner id) :
    ∃ c ∈ w.index.root.clusters, (c.bucket? owner).isSome := by
  obtain ⟨r, known, rfl, spatial⟩ := mine
  obtain ⟨p, hp, -⟩ := h.integrity.exists_anchor known spatial
  have recorded : (w.index.root.memberAt? [] r.owner id).isSome :=
    (h.isSome_memberAt?_iff known spatial hp).mpr ⟨rfl, .root⟩
  obtain ⟨c, hc⟩ := Option.isSome_iff_exists.mp (Branch.isSome_at?_of_memberAt? recorded)
  have filed := (@Tree.Anchored.isSome_bucket?_iff _ [] r.owner h.mirrored.anchored).mpr
    ⟨id, recorded⟩
  rw [hc] at filed
  exact ⟨c, Branch.mem_clusters_iff.mpr ⟨[], hc⟩, filed⟩

theorem Reachable.exists_bucket_iff (h : Reachable range w) :
    (∃ c ∈ w.index.root.clusters, (c.bucket? owner).isSome) ↔ ∃ id, w.Owns owner id := by
  constructor
  · rintro ⟨c, hc, filed⟩
    exact h.mirrored.exists_owns hc filed
  · rintro ⟨id, mine⟩
    exact h.exists_bucket mine

/-! ### The answer -/

/-- The answer depends on the registry alone. -/
theorem Reachable.checkOwnerClear_eq (h : Reachable range w) : w.checkOwnerClear owner =
    if 0 < {id | w.Owns owner id}.ncard then
      .error (.ownerHasEntities owner {id | w.Owns owner id}.ncard)
    else .ok () := by
  have counted : w.entities.countP (fun (_, r) => r.owner == owner && r.kind.isSpatial) =
      {id | w.Owns owner id}.ncard := by
    rw [ncard_owns, holdings, List.length_map, List.countP_eq_length_filter]
  rw [checkOwnerClear, counted]
  split
  · rfl
  · next clear =>
    rw [if_neg]
    -- a stale bucket would have an entity, which would have been counted
    intro stale
    obtain ⟨c, hc, filed⟩ := List.countP_pos_iff.mp stale
    exact clear (ncard_owns_pos_iff.mpr (h.mirrored.exists_owns hc filed))

theorem Reachable.checkOwnerClear_eq_ok_iff (h : Reachable range w) :
    w.checkOwnerClear owner = .ok () ↔ ∀ id, ¬ w.Owns owner id := by
  rw [h.checkOwnerClear_eq, ← not_exists, ← ncard_owns_pos_iff]
  split
  · next owning => exact iff_of_false nofun (not_not_intro owning)
  · next clear => exact iff_of_true rfl clear

/-- An owner that is not clear has entities, and their number is told. -/
theorem Reachable.checkOwnerClear_eq_error_iff (h : Reachable range w) {cause : WorldError} :
    w.checkOwnerClear owner = .error cause ↔
      (∃ id, w.Owns owner id) ∧ cause = .ownerHasEntities owner {id | w.Owns owner id}.ncard := by
  rw [h.checkOwnerClear_eq, ← ncard_owns_pos_iff]
  split
  · next owning =>
    refine ⟨fun same => ⟨owning, (Except.error.inj same).symm⟩, ?_⟩
    rintro ⟨-, rfl⟩
    rfl
  · next clear => exact iff_of_false nofun fun refused => clear refused.1

/-- What a world answers for an owner, and what the answer rests on. -/
structure Clearance (w : World) (owner : OwnerId) : Prop where
  finite : {id | w.Owns owner id}.Finite
  /-- An owner is clear if nothing spatial is registered for it. -/
  clear_iff : w.checkOwnerClear owner = .ok () ↔ ∀ id, ¬ w.Owns owner id
  /-- This is when no cluster has a bucket for it. -/
  traceless_iff : (∀ c ∈ w.index.clusters, c.bucket? owner = none) ↔ ∀ id, ¬ w.Owns owner id
  /-- Otherwise the number of its entities is told. -/
  refused_iff : ∀ cause, w.checkOwnerClear owner = .error cause ↔
    (∃ id, w.Owns owner id) ∧ cause = .ownerHasEntities owner {id | w.Owns owner id}.ncard

/-- In every world of every run an owner is clear exactly if no spatial entity is registered for
it, which is when no cluster has a bucket for it. Otherwise the answer is the number of these
entities, and never a number of clusters. -/
theorem checkOwnerClear_exact (started : Started range w₀) (calls : List Call) (owner : OwnerId) :
    (w₀.run calls).Clearance owner := by
  have reachable := started.reachable.run calls
  constructor
  case finite => exact finite_owns
  case clear_iff => exact reachable.checkOwnerClear_eq_ok_iff
  case traceless_iff =>
    rw [← not_exists, ← reachable.exists_bucket_iff]
    simp [Tree.clusters]
  case refused_iff => exact fun cause => reachable.checkOwnerClear_eq_error_iff

/-- A rail node goes and takes the edge of another owner with it, who is clear then, while the
other node of its own owner stays. -/
theorem checkOwnerClear_exact_edge :
    let spawned : List Call :=
      [.spawnWithId (.ofNat 1) ⟨.railNode, ⟨2⟩, .point ⟨1, 1⟩⟩,
        .spawnWithId (.ofNat 2) ⟨.railNode, ⟨2⟩, .point ⟨-5, 3⟩⟩,
        .spawnWithId (.ofNat 3) ⟨.railEdge, ⟨3⟩, .edge (.ofNat 1) (.ofNat 2)⟩]
    let calls := spawned ++ [.despawn (.ofNat 1)]
    ∃ w, create ⟨4, 3⟩ 7 = .ok w ∧ {id | (w.run spawned).Owns ⟨3⟩ id}.ncard = 1 ∧
      (∀ c ∈ (w.run calls).index.clusters, c.bucket? ⟨3⟩ = none) ∧
      ∃ c ∈ (w.run calls).index.clusters, c.bucket? ⟨2⟩ ≠ none := by
  intro spawned calls
  have created : create ⟨4, 3⟩ 7 = .ok _ := rfl
  have before := checkOwnerClear_exact (.created created) spawned ⟨3⟩
  have after := checkOwnerClear_exact (.created created) calls ⟨3⟩
  have other := checkOwnerClear_exact (.created created) calls ⟨2⟩
  obtain ⟨-, one⟩ := (before.refused_iff (.ownerHasEntities ⟨3⟩ 1)).mp (by decide +kernel)
  obtain ⟨stays, -⟩ := (other.refused_iff (.ownerHasEntities ⟨2⟩ 1)).mp (by decide +kernel)
  refine ⟨_, created, (WorldError.ownerHasEntities.inj one).2.symm,
    after.traceless_iff.mpr (after.clear_iff.mp (by decide +kernel)), ?_⟩
  by_contra! traceless
  exact not_exists.mpr (other.traceless_iff.mp traceless) stays

end World

end RailAtlas
