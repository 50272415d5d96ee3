import RailAtlas.Proofs.Index.Canonical
import RailAtlas.Proofs.World.Mirror

/-!
# The index has no memory

Whatever calls have made a world, its index has been changed from the root down only, so its labels
are counted; and what it records is the mirror of the registry, in which nothing is left of the
calls. Two worlds over the same scales with the same registry therefore have the same index up to
labels, and everything that is asked of one of them is answered by the other one in the same way,
order included.
-/

namespace RailAtlas

namespace World

variable {range : ScaleRange} {w u : World} {e : Event}

/-! ### What steps do to the index -/

/-- Indexing entities anew is a sequence of updates. -/
theorem exists_perform_reindex (ids : List EntityId) : ∃ ops : List RootOperation,
    (Logged.foldList reindex w ids).value.index = ops.foldl Tree.perform w.index := by
  rw [Logged.value_foldList]
  induction ids generalizing w with
  | nil => exact ⟨[], rfl⟩
  | cons x ids ih =>
    rw [List.foldl_cons, reindex]
    cases w.placement? x with
    | none => exact ih
    | some p =>
      obtain ⟨ops, hops⟩ := @ih { w with index := (w.index.update p).value }
      exact ⟨.update p :: ops, hops⟩

/-- Every step changes the index from the root down. -/
theorem Step.exists_perform (h : Step w e u) :
    ∃ ops : List RootOperation, u.index = ops.foldl Tree.perform w.index := by
  cases h with
  | @spawned id r =>
    let registered : World := { w with registry := w.registry.insert id r }
    exact ⟨[.add (registered.placementOf id r)], rfl⟩
  | @despawned id r known =>
    refine ⟨[.remove (w.placementOf id r)], ?_⟩
    rw [retire_of_some known]
    rfl
  | @moved id r old goal =>
    obtain ⟨index, hvalue, hfold, -⟩ := @relocate_eq w id r old goal
    obtain ⟨ops, hops⟩ := @exists_perform_reindex (w.repositioned id r goal)
      (id :: (w.repositioned id r goal).dependants id r)
    refine ⟨ops, ?_⟩
    rw [hvalue]
    exact hfold.symm.trans hops
  | stepped => exact ⟨[], rfl⟩

/-- The index of a world has grown out of a fresh tree. -/
theorem Reachable.exists_perform (h : Reachable range w) :
    ∃ (fresh : Tree) (ops : List RootOperation),
      Tree.create range = .ok fresh ∧ w.index = ops.foldl Tree.perform fresh := by
  induction h with
  | created hw =>
    obtain ⟨index, hindex, rfl⟩ := create_eq hw
    exact ⟨index, [], hindex, rfl⟩
  | step _ hstep ih =>
    obtain ⟨fresh, before, hfresh, hindex⟩ := ih
    obtain ⟨ops, hops⟩ := hstep.exists_perform
    exact ⟨fresh, before ++ ops, hfresh, by rw [hops, hindex, List.foldl_append]⟩
  | relogged _ _ ih => exact ih

theorem Reachable.distinct (h : Reachable range w) (fit : w.index.labels.Fit) :
    w.index.Distinct := by
  obtain ⟨fresh, ops, hfresh, hindex⟩ := h.exists_perform
  rw [hindex] at fit ⊢
  exact (Tree.counted_run hfresh ops).distinct fit

/-! ### The registry decides -/

/-- The mirror is made of the registry and the scales alone. -/
theorem mirror_of_registry (registry : w.registry = u.registry)
    (range : w.index.range = u.index.range) : w.mirror = u.mirror := by
  obtain ⟨entities, tick, seed, log, index⟩ := w
  obtain rfl : entities = u.registry := registry
  exact @mirror_of_range u index range

theorem Reachable.exists_carries (hw : Reachable range w) (hu : Reachable range u)
    (registry : w.registry = u.registry) (fit : w.index.labels.Fit) (fit' : u.index.labels.Fit) :
    ∃ ρ, Tree.Carries ρ w.index u.index := by
  have ranges : w.index.range = u.index.range := hw.range_index.trans hu.range_index.symm
  have contents : w.index.contents = u.index.contents := by
    rw [hw.mirrored.contents, hu.mirrored.contents, mirror_of_registry registry ranges]
  exact Tree.exists_carries hw.mirrored.anchored hu.mirrored.anchored ranges contents
    (hw.distinct fit) (hu.distinct fit')

/-- Two runs over the same scales that end with the same registry end with the same index up to
labels. Clusters have the same squares, parents, children and chunks, chunks have the same members,
sizes are equal, and every viewport shows the same. -/
theorem history_independent (hw : Started range w) (hu : Started range u) (calls calls' : List Call)
    (registry : (w.run calls).registry = (u.run calls').registry)
    (fit : (w.run calls).index.labels.Fit) (fit' : (u.run calls').index.labels.Fit) :
    ∃ ρ, Tree.Carries ρ (w.run calls).index (u.run calls').index ∧
      (∀ id, (w.run calls).index.isRegistered id = true →
        ∃ e, (w.run calls).index.entry? id = some e ∧
          (u.run calls').index.entry? (ρ.cluster id) = some (e.rename ρ)) ∧
      (u.run calls').index.stats = (w.run calls).index.stats ∧
      ∀ viewport, (u.run calls').view viewport = ((w.run calls).view viewport).rename ρ := by
  have reachable := hw.reachable.run calls
  have reachable' := hu.reachable.run calls'
  obtain ⟨ρ, carries⟩ := reachable.exists_carries reachable' registry fit fit'
  refine ⟨ρ, carries, fun id registered => ?_, ?_, fun viewport => ?_⟩
  · exact Tree.exists_entry?_rename carries.root (reachable.distinct fit).clusters
      (reachable'.distinct fit').clusters registered
  · exact Tree.stats_rename carries.root (reachable'.range_index.trans reachable.range_index.symm)
  · have shown := Tree.fillView_rename carries.root viewport .empty
    rwa [View.rename_empty] at shown

/-- A rail between two nodes, once built where it stands and once after one of its nodes has come
from the opposite quadrant and a station has been there for a while. -/
theorem history_independent_rail :
    let east : EntityRecord := ⟨.railNode, ⟨2⟩, .point ⟨1, 1⟩⟩
    let west : EntityRecord := ⟨.railNode, ⟨2⟩, .point ⟨-5, 1⟩⟩
    let rail : EntityRecord := ⟨.railEdge, ⟨2⟩, .edge (.ofNat 1) (.ofNat 2)⟩
    let away : EntityRecord := ⟨.railNode, ⟨2⟩, .point ⟨5, -5⟩⟩
    let station : EntityRecord := ⟨.station, ⟨3⟩, .point ⟨-1, -1⟩⟩
    let built : List Call :=
      [.spawnWithId (.ofNat 1) east, .spawnWithId (.ofNat 2) west, .spawnWithId (.ofNat 3) rail]
    let rebuilt : List Call :=
      [.spawnWithId (.ofNat 1) away, .spawnWithId (.ofNat 2) west, .spawnWithId (.ofNat 3) rail,
        .spawnWithId (.ofNat 4) station, .step, .moveTo (.ofNat 1) ⟨1, 1⟩, .despawn (.ofNat 4),
        .trimEvents 1]
    ∃ w u, create ⟨4, 3⟩ 7 = .ok w ∧ create ⟨4, 3⟩ 8 = .ok u ∧
      (w.run built).registry = (u.run rebuilt).registry ∧
      (w.run built).index.labels.Fit ∧ (u.run rebuilt).index.labels.Fit ∧
      (w.run built).index.labels ≠ (u.run rebuilt).index.labels ∧
      ∃ ρ, Tree.Carries ρ (w.run built).index (u.run rebuilt).index ∧
        ∀ viewport, (u.run rebuilt).view viewport = ((w.run built).view viewport).rename ρ := by
  intro east west rail away station built rebuilt
  have created : create ⟨4, 3⟩ 7 = .ok _ := rfl
  have created' : create ⟨4, 3⟩ 8 = .ok _ := rfl
  refine ⟨_, _, created, created', ?same, ?fit, ?fit', by decide +kernel, ?carried⟩
  case same => decide +kernel
  case fit => decide +kernel
  case fit' => decide +kernel
  case carried =>
    obtain ⟨ρ, carries, -, -, views⟩ := history_independent (.created created) (.created created')
      built rebuilt (by decide +kernel) (by decide +kernel) (by decide +kernel)
    exact ⟨ρ, carries, views⟩

end World

end RailAtlas
