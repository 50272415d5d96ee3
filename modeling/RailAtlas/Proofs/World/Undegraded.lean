import RailAtlas.Proofs.Index.Notices
import RailAtlas.Proofs.World.Mirror

/-!
# Worlds stay inside their index

The index copes with entities that have no position or lie outside the world square, and reports
them. A world gives it no occasion to do so. What it tells the index is made from records that are
well formed and fit the world at that moment, and a record that fits is anchored at a finite point
inside the world square. From there on indexing visits squares that hold the point only.
-/

namespace RailAtlas

/-- The entity that a change of the index is about. -/
def RootOperation.placement : RootOperation → Placement
  | .add p | .remove p | .update p => p

/-- An entity that is to be indexed has a finite point, which is in every square that is visited on
the way down. -/
def Placement.Indexable (range : ScaleRange) (p : Placement) : Prop :=
  p.kind.isSpatial = true → ∃ position, p.point = some position ∧ position.isFinite = true ∧
    ∀ path, Descent range position path →
      ((Tree.worldSquare range).along path).contains position = true

namespace Tree

variable {t : Tree} {p : Placement}

/-- What is indexable is added without a notice. -/
theorem Anchored.notices_add_eq_nil (h : t.Anchored) (fit : p.Indexable t.range) :
    (t.add p).notices = [] := by
  refine h.notices_add_eq_nil_iff.mpr fun spatial => ?_
  obtain ⟨position, hp, finite, inside⟩ := fit spatial
  exact ⟨position, Option.filter_eq_some_iff.mpr ⟨hp, finite⟩, inside [] .root⟩

theorem Anchored.notices_update_eq_nil (h : t.Anchored) (fit : p.Indexable t.range) :
    (t.update p).notices = [] :=
  (h.remove p).notices_add_eq_nil (by rwa [range_remove])

end Tree

namespace World

variable {w u w₀ : World} {range : ScaleRange} {e : Event} {events : List Event}
variable {id x : EntityId} {r : EntityRecord} {old goal : Point}

/-! ### What a world tells its index -/

/-- What the index is told when an event happens: of a new or departing entity, or anew of a moved
one and everything that depends on it. -/
def indexing (w : World) : Event → List RootOperation
  | .spawned id r => [.add ({ w with registry := w.registry.insert id r }.placementOf id r)]
  | .despawned id r => [.remove (w.placementOf id r)]
  | .moved id _ goal =>
    match w.get? id with
    | none => []
    | some r =>
      let moved := w.repositioned id r goal
      (id :: moved.dependants id r).filterMap fun x => (moved.placement? x).map .update
  | .stepped _ _ => []

/-- Indexing entities anew updates their placements, one after the other. -/
theorem index_foldList_reindex (ids : List EntityId) :
    (Logged.foldList reindex w ids).value.index =
      (ids.filterMap fun x => (w.placement? x).map .update).foldl Tree.perform w.index := by
  rw [Logged.value_foldList]
  induction ids generalizing w with
  | nil => rfl
  | cons x ids ih =>
    rw [List.foldl_cons, reindex, List.filterMap_cons]
    cases w.placement? x with
    | none => exact ih
    | some p => exact @ih { w with index := (w.index.update p).value }

/-- A step changes the index by what it tells the index, and in no other way. -/
theorem Step.index_eq (h : Step w e u) : u.index = (w.indexing e).foldl Tree.perform w.index := by
  cases h with
  | spawned => rfl
  | despawned known =>
    rw [retire_of_some known]
    rfl
  | @moved id r old goal known =>
    obtain ⟨index, hvalue, hfold, -⟩ := @relocate_eq w id r old goal
    rw [hvalue, indexing, known]
    exact hfold.symm.trans (index_foldList_reindex _)
  | stepped => rfl

/-- In a world of integrity every registered entity is indexable. -/
theorem Integrity.indexable (sound : w.Integrity) (known : w.get? id = some r) :
    (w.placementOf id r).Indexable w.index.range := by
  intro spatial
  rw [placementOf_eq] at spatial ⊢
  obtain ⟨p, anchored, inside⟩ := sound.exists_anchor known spatial
  rw [containsPoint, Bool.and_eq_true] at inside
  exact ⟨p, anchored, inside.1, fun path descends => descends.contains inside.2⟩

theorem Integrity.indexable_of_placement? (sound : w.Integrity) {p : Placement}
    (placed : w.placement? id = some p) : p.Indexable w.index.range := by
  obtain ⟨r, known, rfl⟩ := Option.map_eq_some_iff.mp placed
  exact sound.indexable known

/-- A new entity that fits is indexable as soon as it is registered. -/
theorem Integrity.indexable_register (sound : w.Integrity) (fresh : w.get? id = none)
    (formed : r.isWellFormed = true) (fits : w.Fits r.shape) :
    ({ w with registry := w.registry.insert id r }.placementOf id r).Indexable w.index.range := by
  have known : (w.register id r).value.get? id = some r := by rw [get?_register, if_pos rfl]
  have indexable := (sound.register fresh formed fits).indexable known
  rwa [range_register] at indexable

/-- Whatever a step tells the index is indexable. -/
theorem Step.indexable (h : Step w e u) (sound : w.Integrity) {op : RootOperation}
    (told : op ∈ w.indexing e) : op.placement.Indexable w.index.range := by
  cases h with
  | spawned fresh formed fits =>
    obtain rfl := List.mem_singleton.mp told
    exact sound.indexable_register fresh formed fits
  | despawned known =>
    obtain rfl := List.mem_singleton.mp told
    exact sound.indexable known
  | moved known located inside =>
    rw [indexing, known] at told
    obtain ⟨x, -, hop⟩ := List.mem_filterMap.mp told
    obtain ⟨p, placed, rfl⟩ := Option.map_eq_some_iff.mp hop
    exact (sound.repositioned known located inside).indexable_of_placement? placed
  | stepped => exact absurd told List.not_mem_nil

/-! ### No notices -/

/-- Indexing registered entities anew raises no notice. -/
theorem notices_foldList_reindex (ids : List EntityId) (sound : w.Integrity)
    (anchored : w.index.Anchored) : (Logged.foldList reindex w ids).notices = [] := by
  induction ids generalizing w with
  | nil => rfl
  | cons x ids ih =>
    rw [Logged.foldList, Logged.notices_andThen]
    cases placed : w.placement? x with
    | none =>
      rw [reindex, placed]
      exact ih sound anchored
    | some p =>
      rw [reindex, placed, Logged.notices_map, Logged.value_map,
        anchored.notices_update_eq_nil (sound.indexable_of_placement? placed)]
      exact ih (sound.congr (by simp [Tree.update]) fun _ => rfl) (anchored.update p)

theorem Reachable.notices_spawnWithId (h : Reachable range w) {l : Logged IndexWarning World}
    (spawned : w.spawnWithId id r = .ok l) : l.notices = [] := by
  obtain ⟨fresh, formed, fits, rfl⟩ := eq_of_spawnWithId spawned
  exact h.mirrored.anchored.notices_add_eq_nil (h.integrity.indexable_register fresh formed fits)

theorem Reachable.notices_moveTo (h : Reachable range w) {l : Logged IndexWarning World}
    (moved : w.moveTo id goal = .ok l) : l.notices = [] := by
  obtain ⟨r, old, known, located, inside, rfl⟩ := exists_of_moveTo moved
  exact notices_foldList_reindex _ (h.integrity.repositioned known located inside)
    h.mirrored.anchored

theorem Reachable.notices_applyEvent (h : Reachable range w) {l : Logged IndexWarning World}
    (applied : w.applyEvent e = .ok l) : l.notices = [] := by
  cases e with
  | spawned id r => exact h.notices_spawnWithId applied
  | despawned id r =>
    simp only [applyEvent] at applied
    split at applied
    · cases hd : w.despawn id with
      | error cause => simp [hd, Except.map] at applied
      | ok found =>
        simp only [hd, Except.map, Except.ok.injEq] at applied
        rw [← applied]
        rfl
    · rw [← Except.ok.inj applied]
      rfl
  | moved id before after => exact h.notices_moveTo applied
  | stepped tick seed =>
    rw [← Except.ok.inj applied]
    rfl

/-- Applying events raises no notice: after each event the world is reachable again. -/
theorem Reachable.notices_applyEvents (h : Reachable range w) {l : Logged IndexWarning World}
    (applied : w.applyEvents events = .ok l) : l.notices = [] := by
  induction events generalizing w l with
  | nil =>
    rw [← Except.ok.inj applied]
    rfl
  | cons e events ih =>
    obtain ⟨next, last, hfirst, hrest, rfl⟩ := exists_of_applyEvents_cons applied
    obtain ⟨made, hmade⟩ := steps_applyEvent h.integrity hfirst
    rw [h.notices_applyEvent hfirst, ih (h.steps hmade) hrest]
    rfl

/-! ### Every world -/

/-- What the index records is inside the cluster that records it. -/
theorem Reachable.contains_member (h : Reachable range w) {c : Cluster} {owner : OwnerId}
    {m : Member} (hc : c ∈ w.index.root.clusters) (hm : c.member? owner id = some m) :
    c.square.contains m.point = true := by
  obtain ⟨path, hpath⟩ := Branch.mem_clusters_iff.mp hc
  rw [← Branch.memberAt?_of_at? hpath] at hm
  change w.index.contents path owner id = some m at hm
  rw [h.mirrored.contents, h.integrity.mirror_eq_some_iff] at hm
  obtain ⟨r, p, known, -, spatial, anchored, descends, rfl⟩ := hm
  rw [h.mirrored.anchored.sound.placed hpath]
  exact descends.contains (h.range_index.symm ▸ (h.anchor_inside known spatial anchored).2)

/-- How a world over the given scales gets on with its index. -/
structure Undegraded (range : ScaleRange) (w : World) : Prop where
  /-- Spawning raises no notice, under a given identifier or a fresh one. -/
  spawns : ∀ id r l, w.spawnWithId id r = .ok l → l.notices = []
  draws : ∀ ids r id l, (w.spawn ids r).1 = .ok (id, l) → l.notices = []
  /-- Moving raises no notice, and despawning has none to raise. -/
  moves : ∀ id goal l, w.moveTo id goal = .ok l → l.notices = []
  /-- Nor does applying events to the world, or to an empty one. -/
  applies : ∀ events l, w.applyEvents events = .ok l → l.notices = []
  replays : ∀ events l, replay range events = .ok l → l.notices = []
  /-- Every call goes step by step, a despawn with all that go along, too, and so does the
  application of events. -/
  stepwise : ∀ c, c ≠ .drainEvents → (∀ keep, c ≠ .trimEvents keep) →
    ∃ made, Steps w made (w.perform c)
  reapplied : ∀ events l, w.applyEvents events = .ok l → ∃ made, Steps w made l.value
  /-- In all steps, the index is told nothing but of entities that are indexable. -/
  tells : ∀ events u e v, Steps w events u → Step u e v →
    v.index = (u.indexing e).foldl Tree.perform u.index ∧
      ∀ op ∈ u.indexing e, op.placement.Indexable range
  /-- Every member of every bucket is inside the cluster. -/
  contains : ∀ c ∈ w.index.root.clusters, ∀ owner id m, c.member? owner id = some m →
    c.square.contains m.point = true

/-- No operation on a world of any run makes the index cope with a missing position or a point that
is out of bounds: what it is told is indexable, and nothing is recorded out of its cluster. -/
theorem run_undegraded (started : Started range w₀) (calls : List Call) :
    Undegraded range (w₀.run calls) := by
  have reachable := started.reachable.run calls
  constructor
  case spawns => exact fun id r l spawned => reachable.notices_spawnWithId spawned
  case draws =>
    exact fun ids r id l spawned => reachable.notices_spawnWithId (spawnWithId_of_spawn spawned)
  case moves => exact fun id goal l moved => reachable.notices_moveTo moved
  case applies => exact fun events l applied => reachable.notices_applyEvents applied
  case replays =>
    intro events l replayed
    obtain ⟨fresh, hfresh, applied⟩ := exists_of_replay replayed
    exact (Reachable.created hfresh).notices_applyEvents applied
  case stepwise => exact fun c drains trims => steps_perform reachable.integrity drains trims
  case reapplied => exact fun events l applied => steps_applyEvents reachable.integrity applied
  case tells =>
    intro events u e v before next
    have reached := reachable.steps before
    exact ⟨next.index_eq, fun op told =>
      reached.range_index ▸ next.indexable reached.integrity told⟩
  case contains => exact fun c hc owner id m hm => reachable.contains_member hc hm

/-- A node with an edge is moved, so that the edge is indexed anew. -/
theorem run_undegraded_edge :
    let calls : List Call := [.spawnWithId (.ofNat 1) ⟨.railNode, ⟨2⟩, .point ⟨1, 1⟩⟩,
      .spawnWithId (.ofNat 2) ⟨.railEdge, ⟨2⟩, .edge (.ofNat 1) (.ofNat 1)⟩,
      .moveTo (.ofNat 1) ⟨-1, 1⟩]
    ∃ w, create .standard 7 = .ok w ∧ Undegraded .standard (w.run calls) := by
  intro calls
  have created : create .standard 7 = .ok _ := rfl
  exact ⟨_, created, run_undegraded (.created created) calls⟩

end World

end RailAtlas
