import RailAtlas.Proofs.World.Step

/-!
# The index mirrors the registry

What the index of a world records can be read off the registry: each spatial entity is recorded
for its owner on the descent of its anchor, and nothing else is recorded. An entity is anchored at
its own point, and an edge at the current point of its origin.

The mirror of a registry is made of the entries that each entity would have alone, so a step has
to be looked at for the entities whose placements it changes. For a new or a departing entity this
is the entity itself, since nothing refers to it. For a moved node it is the node and the edges at
it, and these are the entities that are indexed anew.
-/

namespace RailAtlas

namespace World

variable {w u : World} {e : Event} {range : ScaleRange} {id x : EntityId} {r : EntityRecord}
variable {old goal : Point} {path : List Quadrant} {owner : OwnerId} {p : Placement}

/-- The point at which the index holds an entity with a given record. -/
def anchor? (w : World) (r : EntityRecord) : Option Point :=
  match r.shape with
  | .point p => some p
  | .edge origin _ => w.positionOf? origin
  | .placeless => none

/-- The point to which an entity with a given record leads. -/
def leadsTo? (w : World) (r : EntityRecord) : Option Point :=
  match r.shape with
  | .edge _ target => w.positionOf? target
  | _ => none

theorem placementOf_eq : w.placementOf id r =
    { id, owner := r.owner, kind := r.kind, point := w.anchor? r, target := w.leadsTo? r } := by
  rw [placementOf, anchor?, leadsTo?]
  cases r.shape <;> rfl

/-- What an index over a registry has to record. -/
def mirror (w : World) : FlatIndex := fun path owner entity =>
  (w.placement? entity).bind fun p => FlatIndex.empty.add w.index.range p path owner entity

/-- The index is anchored and records what the registry says. -/
structure Mirrored (w : World) : Prop where
  anchored : w.index.Anchored
  contents : w.index.contents = w.mirror

/-! ### Placements -/

/-- The anchor and the end of an entity move only with the entities to which its record refers. -/
theorem placementOf_congr (same : ∀ n, r.touches n = true → u.get? n = w.get? n) :
    u.placementOf x r = w.placementOf x r := by
  cases hs : r.shape with
  | point p => simp [placementOf, hs]
  | placeless => simp [placementOf, hs]
  | edge origin target =>
    have horigin : u.get? origin = w.get? origin := same _ (by simp [EntityRecord.touches, hs])
    have htarget : u.get? target = w.get? target := same _ (by simp [EntityRecord.touches, hs])
    simp only [placementOf, hs, positionOf?, horigin, htarget]

theorem mirror_of_none (h : w.get? x = none) : w.mirror path owner x = none := by
  simp [mirror, placement?, h]

theorem mirror_of_some (h : w.get? x = some r) : w.mirror path owner x =
    FlatIndex.empty.add w.index.range (w.placementOf x r) path owner x := by
  simp [mirror, placement?, h]

/-- The mirror shows the same of an entity while its record and those to which it refers stay. -/
theorem mirror_eq_of_kept (range : u.index.range = w.index.range) (kept : u.get? x = w.get? x)
    (ends : ∀ r n, w.get? x = some r → r.touches n = true → u.get? n = w.get? n) :
    u.mirror path owner x = w.mirror path owner x := by
  cases hr : w.get? x with
  | none => rw [mirror_of_none (kept.trans hr), mirror_of_none hr]
  | some r =>
    rw [mirror_of_some (kept.trans hr), mirror_of_some hr, range,
      placementOf_congr fun n touches => ends r n hr touches]

/-- A change of one record shows in the mirror at this entity and at those that refer to it. -/
theorem mirror_congr (range : u.index.range = w.index.range)
    (others : ∀ n, n ≠ id → u.get? n = w.get? n) (hx : x ≠ id)
    (apart : ∀ r, w.get? x = some r → r.touches id = false) :
    u.mirror path owner x = w.mirror path owner x := by
  refine mirror_eq_of_kept range (others x hx) fun r n hr touches => others n ?_
  rintro rfl
  simp [apart r hr] at touches

/-- What the mirror shows belongs to the owner on record and has a place. -/
theorem owner_of_mirror {m : Member} (hr : w.get? x = some r)
    (hm : w.mirror path owner x = some m) : owner = r.owner ∧ r.kind.isSpatial = true := by
  rw [mirror_of_some hr, FlatIndex.add_empty_eq_some_iff, placementOf_eq] at hm
  exact ⟨hm.2.1, hm.1⟩

/-! ### Registering and taking out -/

theorem index_register : (w.register id r).value.index =
    (w.index.add ({ w with registry := w.registry.insert id r }.placementOf id r)).value := rfl

theorem Mirrored.register (h : w.Mirrored) (sound : w.Integrity) (fresh : w.get? id = none) :
    (w.register id r).value.Mirrored := by
  refine ⟨h.anchored.add _, ?_⟩
  have apart : w.Unreferenced id := by
    apply sound.unreferenced
    rintro ⟨found, hfound, -⟩
    simp [fresh] at hfound
  funext path owner x
  rw [index_register, h.anchored.contents_add, h.contents]
  by_cases hx : x = id
  · subst hx
    have known : (w.register x r).value.get? x = some r := by rw [get?_register, if_pos rfl]
    rw [mirror_of_some known, range_register]
    exact FlatIndex.add_congr (mirror_of_none fresh)
  · have others : ∀ n, n ≠ id → (w.register id r).value.get? n = w.get? n := by
      intro n hn
      rw [get?_register, if_neg hn]
    rw [mirror_congr range_register others hx fun r hr => apart hr]
    exact FlatIndex.add_of_ne hx

theorem Mirrored.retire (h : w.Mirrored) (known : w.get? id = some r)
    (apart : w.Unreferenced id) : (w.retire id).Mirrored := by
  have hindex : (w.retire id).index = w.index.remove (w.placementOf id r) := by
    rw [retire_of_some known]
    rfl
  refine ⟨hindex ▸ h.anchored.remove _, ?_⟩
  funext path owner x
  rw [hindex, h.anchored.contents_remove, h.contents]
  by_cases hx : x = id
  · subst hx
    have gone : (w.retire x).get? x = none := by rw [get?_retire, if_pos rfl]
    rw [mirror_of_none gone]
    apply FlatIndex.remove_self (p := w.placementOf x r)
    intro hm
    obtain ⟨m, hm⟩ := Option.isSome_iff_exists.mp hm
    exact owner_of_mirror known hm
  · have others : ∀ n, n ≠ id → (w.retire id).get? n = w.get? n := by
      intro n hn
      rw [get?_retire, if_neg hn]
    rw [mirror_congr range_retire others hx fun r hr => apart hr]
    exact FlatIndex.remove_of_ne hx

/-! ### Indexing anew -/

/-- Whatever the index records belongs to the owner on record and has a place, though it may be
recorded at an outdated point. -/
def Owned (w : World) : Prop :=
  ∀ ⦃path : List Quadrant⦄ ⦃owner : OwnerId⦄ ⦃x : EntityId⦄,
    (w.index.contents path owner x).isSome →
      ∃ r, w.get? x = some r ∧ owner = r.owner ∧ r.kind.isSpatial = true

theorem Mirrored.owned (h : w.Mirrored) : w.Owned := by
  intro path owner x hm
  rw [h.contents] at hm
  obtain ⟨m, hm⟩ := Option.isSome_iff_exists.mp hm
  cases hr : w.get? x with
  | none => simp [mirror_of_none hr] at hm
  | some r => exact ⟨r, rfl, owner_of_mirror hr hm⟩

/-- Indexing an entity anew brings its entries up to date and leaves the others. -/
theorem reindex_spec (anchored : w.index.Anchored) (owned : w.Owned) :
    ∃ index, (w.reindex id).value = { w with index } ∧ index.range = w.index.range ∧
      index.Anchored ∧ ∀ path owner x, index.contents path owner x =
        if x = id then w.mirror path owner x else w.index.contents path owner x := by
  cases hr : w.get? id with
  | none =>
    refine ⟨w.index, by simp [reindex, placement?, hr], rfl, anchored, ?_⟩
    intro path owner x
    split
    · next same =>
      rw [same, mirror_of_none hr]
      apply Option.eq_none_iff_forall_ne_some.mpr
      intro m hm
      obtain ⟨r, known, -⟩ := owned (Option.isSome_of_eq_some hm)
      simp [hr] at known
    · rfl
  | some r =>
    refine ⟨(w.index.update (w.placementOf id r)).value, by simp [reindex, placement?, hr],
      by simp [Tree.update], anchored.update _, fun path owner x => ?_⟩
    rw [anchored.contents_update, FlatIndex.update]
    split
    · next same =>
      subst same
      rw [mirror_of_some hr]
      refine FlatIndex.add_congr (FlatIndex.remove_self (p := w.placementOf x r) fun hm => ?_)
      obtain ⟨found, hfound, howner⟩ := owned hm
      obtain rfl := Option.some.inj (hr.symm.trans hfound)
      exact howner
    · next other => rw [FlatIndex.add_of_ne other, FlatIndex.remove_of_ne other]

/-- The mirror does not depend on what the index records. -/
theorem mirror_of_range (w : World) {index : Tree} (range : index.range = w.index.range) :
    { w with index }.mirror = w.mirror := by
  funext path owner x
  rw [mirror]
  rw [range]
  rfl

/-- Indexing entities anew brings the entries of all of them up to date and leaves the others. -/
theorem foldList_reindex_spec (ids : List EntityId) (anchored : w.index.Anchored)
    (owned : w.Owned) : let index := (Logged.foldList reindex w ids).value.index
      index.Anchored ∧ ∀ path owner x, index.contents path owner x =
        if x ∈ ids then w.mirror path owner x else w.index.contents path owner x := by
  rw [Logged.value_foldList]
  induction ids generalizing w with
  | nil => exact ⟨anchored, by simp⟩
  | cons id ids ih =>
    obtain ⟨middle, hmiddle, hrange, hanchored, hcontents⟩ := @reindex_spec w id anchored owned
    have still_owned : { w with index := middle }.Owned := by
      intro path owner x hm
      change (middle.contents path owner x).isSome at hm
      rw [hcontents] at hm
      split at hm
      · obtain ⟨m, hm⟩ := Option.isSome_iff_exists.mp hm
        cases hr : w.get? x with
        | none => simp [mirror_of_none hr] at hm
        | some r => exact ⟨r, hr, owner_of_mirror hr hm⟩
      · exact owned hm
    obtain ⟨hlast, hrest⟩ := ih (w := { w with index := middle }) hanchored still_owned
    rw [List.foldl_cons, hmiddle]
    refine ⟨hlast, ?_⟩
    intro path owner x
    rw [hrest, mirror_of_range w hrange, hcontents]
    by_cases hid : x = id <;> by_cases hids : x ∈ ids <;> simp [hid, hids]

theorem Mirrored.relocate (h : w.Mirrored) (sound : w.Integrity) (known : w.get? id = some r)
    (located : r.shape = .point old) (inside : w.containsPoint goal = true) :
    (w.relocate id r old goal).value.Mirrored := by
  obtain ⟨index, hvalue, hfold, hrange⟩ := @relocate_eq w id r old goal
  let v : World := w.repositioned id r goal
  have others : ∀ n, n ≠ id → v.get? n = w.get? n := by
    intro n hn
    rw [get?_repositioned, if_neg hn]
  have here : v.get? id = some { r with shape := .point goal } := by
    rw [get?_repositioned, if_pos rfl]
  -- a new position changes neither owners nor kinds
  have owned : v.Owned := by
    intro path owner x hm
    obtain ⟨found, hfound, howner, hspatial⟩ := h.owned hm
    by_cases hx : x = id
    · subst hx
      obtain rfl := Option.some.inj (known.symm.trans hfound)
      exact ⟨_, here, howner, hspatial⟩
    · exact ⟨found, (others x hx).trans hfound, howner, hspatial⟩
  have vsound : v.Integrity := sound.repositioned known located inside
  obtain ⟨hanchored, hcontents⟩ :=
    foldList_reindex_spec (w := v) (id :: v.dependants id r) h.anchored owned
  rw [hfold] at hanchored hcontents
  have hindex : (w.relocate id r old goal).value.index = index := by
    rw [hvalue]
    rfl
  have hmirror : (w.relocate id r old goal).value.mirror = v.mirror := by
    rw [hvalue]
    exact mirror_of_range v hrange
  refine ⟨hindex ▸ hanchored, ?_⟩
  funext path owner x
  rw [hindex, hmirror, hcontents]
  split
  · rfl
  · next other =>
    rw [List.mem_cons, not_or] at other
    have apart : ∀ edge, w.get? x = some edge → edge.touches id = false := by
      intro edge hedge
      rw [← Bool.not_eq_true]
      intro touches
      refine other.2 ((vsound.mem_dependants here).mpr ⟨edge, ?_, touches⟩)
      rw [others x other.1, hedge]
    have unchanged : v.mirror path owner x = w.mirror path owner x :=
      mirror_congr rfl others other.1 apart
    rw [unchanged, ← h.contents]
    rfl

/-! ### Whole runs -/

theorem Step.mirrored (h : Step w e u) (sound : w.Integrity) (mirrored : w.Mirrored) :
    u.Mirrored := by
  cases h with
  | spawned fresh => exact mirrored.register sound fresh
  | despawned known unreferenced => exact mirrored.retire known unreferenced
  | moved known located inside => exact mirrored.relocate sound known located inside
  | stepped => exact ⟨mirrored.anchored, mirrored.contents⟩

theorem Reachable.mirrored (h : Reachable range w) : w.Mirrored := by
  induction h with
  | created hw =>
    obtain ⟨index, hindex, rfl⟩ := create_eq hw
    refine ⟨Tree.anchored_create hindex, (Tree.contents_create hindex).trans ?_⟩
    funext path owner x
    exact (mirror_of_none (by simp [get?])).symm
  | step hreach hstep ih => exact hstep.mirrored hreach.integrity ih
  | relogged log _ ih => exact ⟨ih.anchored, ih.contents⟩

/-- In a world of integrity every rail node has a position, which is inside the world. -/
theorem Integrity.exists_position (sound : w.Integrity) (node : w.IsNode id) :
    ∃ p, w.positionOf? id = some p ∧ w.containsPoint p = true := by
  obtain ⟨r, known, kind⟩ := node
  obtain ⟨p, located⟩ := exists_point_of_railNode (sound known).1 kind
  have fits := (sound known).2
  rw [located] at fits
  exact ⟨p, by simp [positionOf?, known, EntityRecord.point?, located], fits⟩

/-- In a world of integrity every spatial entity is anchored inside the world. -/
theorem Integrity.exists_anchor (sound : w.Integrity) (known : w.get? id = some r)
    (spatial : r.kind.isSpatial = true) : ∃ p, w.anchor? r = some p ∧ w.containsPoint p = true := by
  obtain ⟨formed, fits⟩ := sound known
  rw [anchor?]
  cases hs : r.shape with
  | point p =>
    rw [hs] at fits
    exact ⟨p, rfl, fits⟩
  | placeless => simp [EntityRecord.isWellFormed, hs, spatial] at formed
  | edge origin target =>
    rw [hs] at fits
    exact sound.exists_position fits.1

/-- A registered spatial entity is anchored at a finite point of the world square. -/
theorem Reachable.anchor_inside {p : Point} (h : Reachable range w) (known : w.get? id = some r)
    (spatial : r.kind.isSpatial = true) (hp : w.anchor? r = some p) :
    p.isFinite = true ∧ (Tree.worldSquare range).contains p = true := by
  obtain ⟨q, hq, inside⟩ := h.integrity.exists_anchor known spatial
  obtain rfl := Option.some.inj (hp.symm.trans hq)
  rwa [containsPoint, Bool.and_eq_true, h.range_index] at inside

/-- The mirror, entry by entry. -/
theorem Integrity.mirror_eq_some_iff (sound : w.Integrity) {m : Member} :
    w.mirror path owner id = some m ↔ ∃ r p, w.get? id = some r ∧ r.owner = owner ∧
      r.kind.isSpatial = true ∧ w.anchor? r = some p ∧ Descent w.index.range p path ∧
        m = { kind := r.kind, point := p, target := w.leadsTo? r } := by
  cases hr : w.get? id with
  | none => simp [mirror_of_none hr]
  | some r =>
    rw [mirror_of_some hr, FlatIndex.add_empty_eq_some_iff, placementOf_eq]
    constructor
    · rintro ⟨spatial, rfl, -, p, hp, hd, rfl⟩
      exact ⟨r, p, rfl, rfl, spatial, (Option.filter_eq_some_iff.mp hp).1, hd, rfl⟩
    · rintro ⟨found, p, hfound, rfl, spatial, hp, hd, rfl⟩
      obtain rfl := Option.some.inj hfound
      obtain ⟨q, hq, inside⟩ := sound.exists_anchor hr spatial
      obtain rfl := Option.some.inj (hp.symm.trans hq)
      have finite : p.isFinite = true := by
        rw [containsPoint, Bool.and_eq_true] at inside
        exact inside.1
      exact ⟨spatial, rfl, rfl, p, Option.filter_eq_some_iff.mpr ⟨hp, finite⟩, hd, rfl⟩

/-- What the index of a world over the given scales says, read off the registry. -/
structure Indexed (range : ScaleRange) (w : World) : Prop where
  /-- Every spatial entity is anchored somewhere. -/
  anchored : ∀ id r, w.get? id = some r → r.kind.isSpatial = true → ∃ p, w.anchor? r = some p
  /-- Every cluster has a place and covers the square of its place. -/
  placed : ∀ c ∈ w.index.root.clusters, ∃ path, w.index.root.at? path = some c ∧
    c.square = (Tree.worldSquare range).along path
  /-- A cluster holds an entity for its owner exactly if it is on the descent of the anchor. -/
  held : ∀ path c owner id, w.index.root.at? path = some c → (c.holds owner id = true ↔
    ∃ r p, w.get? id = some r ∧ r.owner = owner ∧ r.kind.isSpatial = true ∧
      w.anchor? r = some p ∧ Descent range p path)
  /-- What is stored is the kind, the anchor and where the entity leads. -/
  stored : ∀ path c owner id m, w.index.root.at? path = some c → c.member? owner id = some m →
    ∃ r p, w.get? id = some r ∧ w.anchor? r = some p ∧
      m = { kind := r.kind, point := p, target := w.leadsTo? r }
  /-- The whole descent of a spatial entity has clusters. -/
  covered : ∀ path id r p, w.get? id = some r → r.kind.isSpatial = true → w.anchor? r = some p →
    Descent range p path → ∃ c, w.index.root.at? path = some c

/-- After every run the index mirrors the registry. -/
theorem index_mirrors_registry (started : Started range w) (calls : List Call) :
    Indexed range (w.run calls) := by
  have reachable : Reachable range (w.run calls) := started.reachable.run calls
  have sound := reachable.integrity
  have hrange := reachable.range_index
  obtain ⟨anchored, contents⟩ := reachable.mirrored
  -- an entry of the index is an entry of the mirror
  have entry : ∀ path c owner id, (w.run calls).index.root.at? path = some c →
      c.member? owner id = (w.run calls).mirror path owner id := by
    intro path c owner id hc
    rw [← contents, Tree.contents, Branch.memberAt?_of_at? hc]
  constructor
  · intro id r known spatial
    obtain ⟨p, hp, -⟩ := sound.exists_anchor known spatial
    exact ⟨p, hp⟩
  · intro c hc
    obtain ⟨path, hpath⟩ := Branch.mem_clusters_iff.mp hc
    exact ⟨path, hpath, by rw [← hrange, anchored.sound.placed hpath]⟩
  · intro path c owner id hc
    rw [Cluster.holds_eq_isSome_member?, entry path c owner id hc, Option.isSome_iff_exists]
    simp only [sound.mirror_eq_some_iff, hrange]
    constructor
    · rintro ⟨m, r, p, known, howner, spatial, hp, hd, -⟩
      exact ⟨r, p, known, howner, spatial, hp, hd⟩
    · rintro ⟨r, p, known, howner, spatial, hp, hd⟩
      exact ⟨_, r, p, known, howner, spatial, hp, hd, rfl⟩
  · intro path c owner id m hc hm
    rw [entry path c owner id hc, sound.mirror_eq_some_iff] at hm
    obtain ⟨r, p, known, -, -, hp, -, same⟩ := hm
    exact ⟨r, p, known, hp, same⟩
  · intro path id r p known spatial hp hd
    have hm := sound.mirror_eq_some_iff.mpr ⟨r, p, known, rfl, spatial, hp, hrange ▸ hd, rfl⟩
    rw [← contents] at hm
    exact Option.isSome_iff_exists.mp
      (Branch.isSome_at?_of_memberAt? (Option.isSome_of_eq_some hm))

/-- A world with a station that was moved once. -/
theorem index_mirrors_registry_station : ∃ w, create .standard 7 = .ok w ∧
    Indexed .standard (w.run [.spawnWithId (.ofNat 1) ⟨.station, ⟨2⟩, .point ⟨1, 1⟩⟩,
      .moveTo (.ofNat 1) ⟨-1, 1⟩]) := by
  have created : create .standard 7 = .ok _ := rfl
  exact ⟨_, created, index_mirrors_registry (.created created) _⟩

end World

end RailAtlas
