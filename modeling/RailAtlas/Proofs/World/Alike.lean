import RailAtlas.Proofs.World.Step

/-!
# Worlds that differ in their clocks and logs

The operations read the registry and the index only. So two worlds alike in these are changed alike
and refuse the same operations for the same reasons, whatever their clocks show and their logs have
kept; and the operations leave the clock and the seed alone.
-/

namespace RailAtlas

namespace World

variable {u w : World} {id : EntityId} {r : EntityRecord} {old goal : Point}

/-- Two worlds have the same registry and the same index. -/
structure Alike (u w : World) : Prop where
  registry : u.registry = w.registry
  index : u.index = w.index

namespace Alike

theorem refl (w : World) : Alike w w := ⟨rfl, rfl⟩

theorem get?_eq (h : Alike u w) : u.get? id = w.get? id := by
  rw [get?, h.registry, get?]

theorem placementOf_eq (h : Alike u w) : u.placementOf id r = w.placementOf id r := by
  simp only [placementOf, positionOf?, h.get?_eq]

theorem dependants_eq (h : Alike u w) : u.dependants id r = w.dependants id r := by
  simp only [dependants, touching, entities, h.registry]

theorem containsPoint_eq (h : Alike u w) : u.containsPoint goal = w.containsPoint goal := by
  rw [containsPoint, containsPoint, h.index]

theorem requireSpawnable_eq (h : Alike u w) :
    u.requireSpawnable id r = w.requireSpawnable id r := by
  have places : ∀ s, u.requirePlace s = w.requirePlace s := by
    intro s
    cases s <;> simp only [requirePlace, requireNode, h.containsPoint_eq, h.get?_eq]
  rw [requireSpawnable, requireSpawnable, h.registry, places]

theorem requireMovable_eq (h : Alike u w) :
    u.requireMovable id goal = w.requireMovable id goal := by
  simp only [requireMovable, h.containsPoint_eq, h.get?_eq]

theorem register (h : Alike u w) : Alike (u.register id r).value (w.register id r).value := by
  have inserted : Alike { u with registry := u.registry.insert id r }
      { w with registry := w.registry.insert id r } :=
    ⟨congrArg (·.insert id r) h.registry, h.index⟩
  refine ⟨inserted.registry, ?_⟩
  change (u.index.add _).value = (w.index.add _).value
  rw [inserted.placementOf_eq, h.index]

theorem retire (h : Alike u w) : Alike (u.retire id) (w.retire id) := by
  cases known : w.get? id with
  | none =>
    rw [retire_of_none known, retire_of_none (h.get?_eq.trans known)]
    exact h
  | some r =>
    rw [retire_of_some known, retire_of_some (h.get?_eq.trans known)]
    refine ⟨congrArg (·.erase id) h.registry, ?_⟩
    change u.index.remove _ = w.index.remove _
    rw [h.index, h.placementOf_eq]

theorem foldl_retire (h : Alike u w) (ids : List EntityId) :
    Alike (ids.foldl World.retire u) (ids.foldl World.retire w) := by
  induction ids generalizing u w with
  | nil => exact h
  | cons x ids ih => exact ih h.retire

theorem reindex (h : Alike u w) : Alike (u.reindex id).value (w.reindex id).value := by
  simp only [World.reindex, placement?, h.get?_eq]
  cases w.get? id with
  | none => exact h
  | some r =>
    refine ⟨h.registry, ?_⟩
    change (u.index.update _).value = (w.index.update _).value
    rw [h.index, h.placementOf_eq]

theorem foldList_reindex (h : Alike u w) (ids : List EntityId) :
    Alike (Logged.foldList World.reindex u ids).value
      (Logged.foldList World.reindex w ids).value := by
  simp only [Logged.value_foldList]
  induction ids generalizing u w with
  | nil => exact h
  | cons id ids ih => exact ih h.reindex

theorem relocate (h : Alike u w) :
    Alike (u.relocate id r old goal).value (w.relocate id r old goal).value := by
  have moved : Alike (u.repositioned id r goal) (w.repositioned id r goal) :=
    ⟨congrArg (·.insert id { r with shape := .point goal }) h.registry, h.index⟩
  have indexed := moved.foldList_reindex (id :: (w.repositioned id r goal).dependants id r)
  have same : (u.relocate id r old goal).value = (Logged.foldList World.reindex
      (u.repositioned id r goal) (id :: (w.repositioned id r goal).dependants id r)).value.record
        (.moved id old goal) := by
    rw [← moved.dependants_eq]
    rfl
  rw [same]
  exact ⟨indexed.registry, indexed.index⟩

end Alike

/-! ### What leaves the clock alone -/

/-- Two worlds show the same tick and have the same seed. -/
structure Simultaneous (u w : World) : Prop where
  tick : u.tick = w.tick
  seed : u.seed = w.seed

theorem Simultaneous.refl (w : World) : Simultaneous w w := ⟨rfl, rfl⟩

theorem Simultaneous.trans {v : World} (h : Simultaneous u w) (next : Simultaneous w v) :
    Simultaneous u v :=
  ⟨h.tick.trans next.tick, h.seed.trans next.seed⟩

theorem simultaneous_register : Simultaneous (w.register id r).value w := ⟨rfl, rfl⟩

theorem simultaneous_retire : Simultaneous (w.retire id) w := by
  cases known : w.get? id with
  | none =>
    rw [retire_of_none known]
    exact .refl w
  | some r =>
    rw [retire_of_some known]
    exact ⟨rfl, rfl⟩

theorem simultaneous_foldl_retire (ids : List EntityId) :
    Simultaneous (ids.foldl World.retire w) w := by
  induction ids generalizing w with
  | nil => exact .refl w
  | cons x ids ih => exact ih.trans simultaneous_retire

theorem simultaneous_relocate : Simultaneous (w.relocate id r old goal).value w := by
  obtain ⟨index, hvalue, -⟩ := @relocate_eq w id r old goal
  rw [hvalue]
  exact ⟨rfl, rfl⟩

end World

end RailAtlas
