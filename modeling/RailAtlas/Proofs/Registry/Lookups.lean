import RailAtlas.Proofs.Index.Residue
import RailAtlas.Proofs.Registry.Queries

/-!
# Looking up an entity

The holders of an entity are listed and the chunk of one of them is found by its scale, the one by
a walk over the whole tree, the other by a walk that cuts branches off. Both are scans of the
registered clusters: the holders are all clusters that hold the entity, in visiting order, and the
chunk is that of the first holder of its scale. This does not depend on how the clusters have come
about, so an entity may be held in a cluster without being held above it.
-/

namespace RailAtlas

theorem Cluster.holds_iff {c : Cluster} {owner : OwnerId} {entity : EntityId} :
    c.holds owner entity = true ↔
      ∃ chunk, c.bucket? owner = some chunk ∧ chunk.has entity = true := by
  rw [holds]
  cases c.bucket? owner with
  | none => simp
  | some chunk => simp

namespace Tree

variable {range : ScaleRange} {t : Tree} {c : Cluster} {id below : ClusterId} {owner : OwnerId}
variable {entity : EntityId} {scale : Int}

/-- Whatever is above another cluster comes before it. -/
theorem earlier_of_above (h : t.Above id below) (apart : id ≠ below) : t.Earlier id below := by
  obtain ⟨path, rest, hid, hbelow⟩ := h
  refine ⟨path, path ++ rest, hid, hbelow, .of_isPrefix (List.prefix_append path rest) ?_⟩
  intro same
  rw [← same, hid] at hbelow
  exact apart (Option.some.inj hbelow)

theorem cluster?_of_mem (distinct : t.root.labels.Nodup) (hc : c ∈ t.root.clusters) :
    t.cluster? c.id = some c := by
  obtain ⟨path, hpath⟩ := Branch.mem_clusters_iff.mp hc
  exact (cluster?_eq_some_iff distinct).mpr ⟨path, hpath, rfl⟩

/-- The clusters behind the labels of the holders. -/
theorem filterMap_cluster?_holders (distinct : t.root.labels.Nodup) :
    (t.holders owner entity).filterMap t.cluster? =
      t.root.clusters.filter (·.holds owner entity) := by
  rw [holders, Branch.holders_eq_map_filter, List.filterMap_map]
  refine (List.filterMap_congr fun c hc => ?_).trans List.filterMap_some
  exact cluster?_of_mem distinct (List.mem_filter.mp hc).1

theorem holders_sublist : (t.holders owner entity).Sublist t.root.labels := by
  rw [holders, Branch.holders_eq_map_filter, Branch.labels]
  exact List.filter_sublist.map _

theorem mem_holders_iff (distinct : t.root.labels.Nodup) : id ∈ t.holders owner entity ↔
    ∃ c chunk, t.cluster? id = some c ∧ c.bucket? owner = some chunk ∧ chunk.has entity = true := by
  rw [holders, Branch.holders_eq_map_filter, List.mem_map]
  constructor
  · rintro ⟨c, hc, rfl⟩
    obtain ⟨listed, held⟩ := List.mem_filter.mp hc
    obtain ⟨chunk, hchunk, has⟩ := Cluster.holds_iff.mp held
    exact ⟨c, chunk, cluster?_of_mem distinct listed, hchunk, has⟩
  · rintro ⟨c, chunk, hc, hchunk, has⟩
    obtain ⟨path, hpath, rfl⟩ := (cluster?_eq_some_iff distinct).mp hc
    have listed := Branch.mem_clusters_iff.mpr ⟨path, hpath⟩
    exact ⟨c, List.mem_filter.mpr ⟨listed, Cluster.holds_iff.mpr ⟨chunk, hchunk, has⟩⟩, rfl⟩

/-- The chunk at a scale is that of the first holder of this scale. -/
theorem Labelled.findChunk?_eq (h : t.Labelled) (distinct : t.root.labels.Nodup) :
    t.findChunk? owner entity scale = (((t.holders owner entity).filterMap t.cluster?).find?
      fun c => decide (c.square.scale = scale)).bind (·.bucket? owner) := by
  have picked : (fun c : Cluster => decide (c.holds owner entity = true ∧
      decide (c.square.scale = scale) = true)) = (·.holdsOn scale owner entity) := by
    funext c
    rw [Cluster.holdsOn, Bool.and_comm]
    simp
  rw [filterMap_cluster?_holders distinct, List.find?_filter, picked]
  exact h.sound.findChunk?_eq_bind_find?

/-- A search by scale fails exactly if no holder is of the scale. -/
theorem Labelled.findChunk?_eq_none_iff (h : t.Labelled) (distinct : t.root.labels.Nodup) :
    t.findChunk? owner entity scale = none ↔
      ∀ id ∈ t.holders owner entity, ∀ c, t.cluster? id = some c → c.square.scale ≠ scale := by
  rw [h.findChunk?_eq distinct, Option.bind_eq_none_iff]
  constructor
  · intro none_found id hid c hc same
    have listed : c ∈ (t.holders owner entity).filterMap t.cluster? :=
      List.mem_filterMap.mpr ⟨id, hid, hc⟩
    cases found : ((t.holders owner entity).filterMap t.cluster?).find?
        fun c => decide (c.square.scale = scale) with
    | none => exact absurd (decide_eq_true same) (List.find?_eq_none.mp found c listed)
    | some d =>
      have held := List.mem_of_find?_eq_some found
      rw [filterMap_cluster?_holders distinct] at held
      have filed := Cluster.isSome_bucket?_of_holds (List.mem_filter.mp held).2
      simp [none_found d found] at filed
  · intro apart c found
    obtain ⟨id, hid, hc⟩ := List.mem_filterMap.mp (List.mem_of_find?_eq_some found)
    have same := List.find?_some found
    exact absurd (of_decide_eq_true same) (apart id hid c hc)

/-- The lookups of an entity are scans of the registered clusters. -/
structure Lookups (t : Tree) (owner : OwnerId) (entity : EntityId) : Prop where
  /-- No holder is listed twice. -/
  nodup : (t.holders owner entity).Nodup
  /-- The holders are the registered clusters in which the owner's chunk has the entity. -/
  mem_holders : ∀ id, id ∈ t.holders owner entity ↔ ∃ c chunk, t.cluster? id = some c ∧
    c.bucket? owner = some chunk ∧ chunk.has entity = true
  /-- They are listed in visiting order. -/
  ordered : (t.holders owner entity).Pairwise t.Earlier
  /-- The chunk at a scale is the owner's in the first holder of this scale. -/
  findChunk : ∀ scale, t.findChunk? owner entity scale =
    (((t.holders owner entity).filterMap t.cluster?).find?
      fun c => decide (c.square.scale = scale)).bind (·.bucket? owner)
  /-- There is none exactly if no holder is of the scale. -/
  findChunk_none : ∀ scale, t.findChunk? owner entity scale = none ↔
    ∀ id ∈ t.holders owner entity, ∀ c, t.cluster? id = some c → c.square.scale ≠ scale
  /-- Both answers are reached by following labels, and no label leads nowhere or in a circle. -/
  followed : t.registry.collectHolders owner entity t.registry.fuel rootId [] =
      .ok (t.holders owner entity) ∧
    ∀ scale, t.registry.findChunk owner entity scale t.registry.fuel rootId =
      .ok (t.findChunk? owner entity scale)

/-- In every tree that calls lead to, and for every owner and entity, the two lookups list and find
what is registered: each holder once and after those above it, and at each scale the chunk of the
first holder. -/
theorem lookups_of_reachable (h : Reachable range t) (owner : OwnerId) (entity : EntityId) :
    t.Lookups owner entity ∧ ∀ id below, t.Above id below → id ≠ below → t.Earlier id below := by
  obtain ⟨labelled, before, -⟩ := h.labelled
  have distinct := labelled.nodup (Nat.le_of_lt before)
  refine ⟨?_, fun id below => earlier_of_above⟩
  constructor
  case nodup => exact distinct.sublist holders_sublist
  case mem_holders => exact fun id => mem_holders_iff distinct
  case ordered => exact (labelled.pairwise_earlier distinct).sublist holders_sublist
  case findChunk => exact fun scale => labelled.findChunk?_eq distinct
  case findChunk_none => exact fun scale => labelled.findChunk?_eq_none_iff distinct
  case followed =>
    exact ⟨labelled.registry_holders distinct owner entity,
      labelled.registry_findChunk distinct owner entity⟩

/-- A residence that is indexed from a child down is held there and not in the root. -/
theorem lookups_of_reachable_residence :
    let p : Placement := ⟨.ofNat 1, ⟨2⟩, .residence, some ⟨1, 1⟩, none⟩
    ∃ t, Reachable ⟨3, 2⟩ t ∧ t.holders p.owner p.id = [⟨1⟩] ∧ t.Lookups p.owner p.id ∧
      (t.findChunk? p.owner p.id 2).isSome ∧ t.findChunk? p.owner p.id 3 = none := by
  intro p
  let bare : Tree :=
    { range := ⟨3, 2⟩, root := .leaf (.empty rootId (worldSquare ⟨3, 2⟩)), labels := ⟨1, 0⟩ }
  have created : create ⟨3, 2⟩ = .ok bare := rfl
  have admissible : bare.Admissible (.newChild rootId 1 1) :=
    ⟨_, .southEast, rfl, rfl, rfl, (by decide : (2 : Int) < 3), rfl⟩
  have child : Reachable ⟨3, 2⟩ _ := .answered (.created created) admissible rfl (by decide)
  have held : Reachable ⟨3, 2⟩ _ :=
    @Reachable.answered _ _ _ (.addFrom ⟨1⟩ p) child rfl rfl (by decide +kernel)
  refine ⟨_, held, by decide +kernel, (lookups_of_reachable held p.owner p.id).1, ?_, ?_⟩
  · decide +kernel
  · exact ((lookups_of_reachable held p.owner p.id).1.findChunk_none 3).mpr (by decide +kernel)

end Tree

end RailAtlas
