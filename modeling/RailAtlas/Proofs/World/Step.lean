import RailAtlas.Proofs.World.Integrity

/-!
# Steps and runs of worlds

Every accepted operation is a sequence of steps, one for each event that it logs. `Step w e w'`
says once what a step can do: register an entity, take out one that nothing refers to, give a
located one a new position, or set the clock. The edges at a despawned node go one by one, since
nothing refers to an edge, and when the node's turn comes nothing refers to it any more.

A run is any sequence of calls, refused ones included, from a world that was created or rebuilt.
What holds of all worlds in all runs is proved for `Reachable`, by one case for each step.
-/

namespace RailAtlas

namespace World

/-- What a world becomes by one event. -/
inductive Step : World → Event → World → Prop
  | spawned {w : World} {id : EntityId} {r : EntityRecord} (fresh : w.get? id = none)
      (formed : r.isWellFormed = true) (fits : w.Fits r.shape) :
      Step w (.spawned id r) (w.register id r).value
  | despawned {w : World} {id : EntityId} {r : EntityRecord} (known : w.get? id = some r)
      (unreferenced : w.Unreferenced id) : Step w (.despawned id r) (w.retire id)
  | moved {w : World} {id : EntityId} {r : EntityRecord} {old goal : Point}
      (known : w.get? id = some r) (located : r.shape = .point old)
      (inside : w.containsPoint goal = true) :
      Step w (.moved id old goal) (w.relocate id r old goal).value
  | stepped (w : World) (tick seed : UInt64) :
      Step w (.stepped tick seed) ({ w with tick, seed }.record (.stepped tick seed))

/-- What a world becomes by some events, oldest first. -/
inductive Steps : World → List Event → World → Prop
  | nil (w : World) : Steps w [] w
  | cons {w u v : World} {e : Event} {events : List Event} :
      Step w e u → Steps u events v → Steps w (e :: events) v

variable {w u v : World} {e : Event} {events more : List Event} {range : ScaleRange}
variable {id : EntityId} {r : EntityRecord}

theorem Steps.single (h : Step w e u) : Steps w [e] u :=
  .cons h (.nil u)

theorem Steps.append (h : Steps w events u) (next : Steps u more v) :
    Steps w (events ++ more) v := by
  induction h with
  | nil w => exact next
  | cons first rest ih => exact .cons first (ih next)

theorem Step.integrity (h : Step w e u) (sound : w.Integrity) : u.Integrity := by
  cases h with
  | spawned fresh formed fits => exact sound.register fresh formed fits
  | despawned known unreferenced => exact sound.retire unreferenced
  | moved known located inside => exact sound.relocate known located inside
  | stepped tick seed => exact fun id r hr => sound hr

theorem Step.range_index (h : Step w e u) : u.index.range = w.index.range := by
  cases h with
  | spawned => exact range_register
  | despawned => exact range_retire
  | moved => exact range_relocate
  | stepped => rfl

/-- A step logs its event. -/
theorem Step.log (h : Step w e u) : u.log = w.log.push e := by
  cases h with
  | spawned => rfl
  | despawned known =>
    rw [retire_of_some known]
    rfl
  | @moved id r old goal =>
    obtain ⟨index, hvalue, -⟩ := @relocate_eq w id r old goal
    rw [hvalue]
    rfl
  | stepped => rfl

theorem Steps.integrity (h : Steps w events u) (sound : w.Integrity) : u.Integrity := by
  induction h with
  | nil => exact sound
  | cons first _ ih => exact ih (first.integrity sound)

theorem Steps.log (h : Steps w events u) : u.log.toList = w.log.toList ++ events := by
  induction h with
  | nil => simp
  | cons first _ ih =>
    rw [ih, first.log]
    simp

/-! ### Despawning, step by step -/

theorem Unreferenced.retire (h : w.Unreferenced id) (x : EntityId) :
    (w.retire x).Unreferenced id := by
  intro y r hr
  rw [get?_retire] at hr
  split at hr
  · simp at hr
  · exact h hr

/-- Entities to which nothing refers can be taken out one after the other. -/
theorem steps_foldl_retire (ids : List EntityId) (h : ∀ x ∈ ids, w.Unreferenced x) :
    (∃ events, Steps w events (ids.foldl World.retire w)) ∧
      ∀ x, (ids.foldl World.retire w).get? x = if x ∈ ids then none else w.get? x := by
  induction ids generalizing w with
  | nil => exact ⟨⟨[], .nil w⟩, by simp⟩
  | cons x ids ih =>
    obtain ⟨⟨events, hsteps⟩, hget⟩ := ih fun y hy => (h y (List.mem_cons_of_mem x hy)).retire x
    refine ⟨?_, fun y => ?_⟩
    · cases hr : w.get? x with
      | none =>
        rw [List.foldl_cons, retire_of_none hr]
        exact ⟨events, by simpa only [retire_of_none hr] using hsteps⟩
      | some r => exact ⟨_, .cons (.despawned hr (h x List.mem_cons_self)) hsteps⟩
    · rw [List.foldl_cons, hget, get?_retire]
      by_cases hy : y = x <;> simp [hy]

theorem mem_touching {x : EntityId} :
    x ∈ w.touching id ↔ ∃ r, w.get? x = some r ∧ r.touches id = true := by
  simp only [touching, List.mem_map, List.mem_filter, Prod.exists, mem_entities]
  constructor
  · rintro ⟨y, r, ⟨hr, touches⟩, rfl⟩
    exact ⟨r, hr, touches⟩
  · rintro ⟨r, hr, touches⟩
    exact ⟨x, r, ⟨hr, touches⟩, rfl⟩

/-- In a world of integrity, whatever refers to an entity is among its dependants. -/
theorem Integrity.mem_dependants (sound : w.Integrity) (known : w.get? id = some r) {x : EntityId} :
    x ∈ w.dependants id r ↔ ∃ edge, w.get? x = some edge ∧ edge.touches id = true := by
  rw [dependants]
  split
  · exact mem_touching
  · next other =>
    refine ⟨by simp, ?_⟩
    rintro ⟨edge, hedge, touches⟩
    obtain ⟨node, hnode, hk⟩ := (sound hedge).2.isNode_of_touches touches
    rw [Option.some.inj (hnode.symm.trans known)] at hk
    exact (other hk).elim

/-- Nothing refers to the dependants of an entity: they are edges. -/
theorem Integrity.unreferenced_of_mem_dependants (sound : w.Integrity)
    (known : w.get? id = some r) {x : EntityId} (hx : x ∈ w.dependants id r) :
    w.Unreferenced x := by
  obtain ⟨edge, hedge, touches⟩ := (sound.mem_dependants known).mp hx
  apply sound.unreferenced
  rintro ⟨node, hnode, hk⟩
  rw [Option.some.inj (hnode.symm.trans hedge),
    kind_of_touches (sound hedge).1 touches] at hk
  cases hk

/-- No entity depends on itself: an edge among its own dependants would refer to an edge. -/
theorem Integrity.not_mem_dependants (sound : w.Integrity) (known : w.get? id = some r) :
    id ∉ w.dependants id r := by
  intro self
  obtain ⟨edge, hedge, touches⟩ := (sound.mem_dependants known).mp self
  have untouched := sound.unreferenced_of_mem_dependants known self hedge
  rw [touches] at untouched
  cases untouched

/-- An entity is still registered when its dependants have been taken out. -/
theorem Integrity.outlives_dependants (sound : w.Integrity) (known : w.get? id = some r) :
    ((w.dependants id r).foldl World.retire w).get? id = some r := by
  rw [(steps_foldl_retire _ fun x hx => sound.unreferenced_of_mem_dependants known hx).2,
    if_neg (sound.not_mem_dependants known), known]

/-- Despawning takes out the dependants and then the entity itself, step by step. -/
theorem steps_despawn (sound : w.Integrity) (h : w.despawn id = .ok (r, u)) :
    ∃ events, Steps w events u := by
  rw [despawn] at h
  cases known : w.get? id with
  | none => simp [known] at h
  | some found =>
    simp only [known, Except.ok.injEq, Prod.mk.injEq] at h
    obtain ⟨rfl, rfl⟩ := h
    obtain ⟨⟨events, hsteps⟩, hget⟩ := steps_foldl_retire (w.dependants id found)
      fun x hx => sound.unreferenced_of_mem_dependants known hx
    have alone : ((w.dependants id found).foldl World.retire w).Unreferenced id := by
      intro x edge hx
      rw [hget] at hx
      split at hx
      · simp at hx
      · next away =>
        rw [← Bool.not_eq_true]
        exact fun touches => away ((sound.mem_dependants known).mpr ⟨edge, hx, touches⟩)
    exact ⟨_, hsteps.append (.single (.despawned (sound.outlives_dependants known) alone))⟩

/-! ### Calls -/

theorem eq_of_spawnWithId {l : Logged IndexWarning World} (h : w.spawnWithId id r = .ok l) :
    w.get? id = none ∧ r.isWellFormed = true ∧ w.Fits r.shape ∧ l = w.register id r := by
  rw [spawnWithId] at h
  cases hreq : w.requireSpawnable id r with
  | error cause => simp [hreq, bind, Except.bind] at h
  | ok _ =>
    simp only [hreq, bind, Except.bind, pure, Except.pure, Except.ok.injEq] at h
    obtain ⟨fresh, formed, fits⟩ := requireSpawnable_eq_ok_iff.mp hreq
    exact ⟨fresh, formed, fits, h.symm⟩

/-- A spawn under a fresh identifier is one under the identifier that it gives. -/
theorem spawnWithId_of_spawn {ids : IdStream} {l : Logged IndexWarning World}
    (h : (w.spawn ids r).1 = .ok (id, l)) : w.spawnWithId id r = .ok l := by
  change (w.spawnWithId ids.draw.1 r).map (fun next => (ids.draw.1, next)) = .ok (id, l) at h
  cases hspawn : w.spawnWithId ids.draw.1 r with
  | error cause => simp [hspawn, Except.map] at h
  | ok next =>
    simp only [hspawn, Except.map, Except.ok.injEq, Prod.mk.injEq] at h
    obtain ⟨rfl, rfl⟩ := h
    exact hspawn

theorem steps_spawnWithId {l : Logged IndexWarning World} (h : w.spawnWithId id r = .ok l) :
    Steps w [.spawned id r] l.value := by
  obtain ⟨fresh, formed, fits, rfl⟩ := eq_of_spawnWithId h
  exact .single (.spawned fresh formed fits)

theorem exists_of_moveTo {goal : Point} {l : Logged IndexWarning World}
    (h : w.moveTo id goal = .ok l) : ∃ r old, w.get? id = some r ∧ r.shape = .point old ∧
      w.containsPoint goal = true ∧ l = w.relocate id r old goal := by
  rw [moveTo] at h
  cases hreq : w.requireMovable id goal with
  | error cause => simp [hreq, bind, Except.bind] at h
  | ok found =>
    obtain ⟨r, old⟩ := found
    simp only [hreq, bind, Except.bind, pure, Except.pure, Except.ok.injEq] at h
    obtain ⟨known, located, inside⟩ := requireMovable_eq_ok_iff.mp hreq
    exact ⟨r, old, known, located, inside, h.symm⟩

theorem steps_moveTo {goal : Point} {l : Logged IndexWarning World}
    (h : w.moveTo id goal = .ok l) : ∃ old, Steps w [.moved id old goal] l.value := by
  obtain ⟨r, old, known, located, inside, rfl⟩ := exists_of_moveTo h
  exact ⟨old, .single (.moved known located inside)⟩

inductive Call where
  | spawn (ids : IdStream) (r : EntityRecord)
  | spawnWithId (id : EntityId) (r : EntityRecord)
  | despawn (id : EntityId)
  | moveTo (id : EntityId) (goal : Point)
  | step
  | drainEvents
  | trimEvents (keep : Nat)

/-- The world after an operation that may be refused; a refused one gives no world. -/
def accept (w : World) (outcome : Except WorldError World) : World :=
  match outcome with
  | .ok next => next
  | .error _ => w

/-- The world after a call, accepted or not. -/
def perform (w : World) : Call → World
  | .spawn ids r => w.accept ((w.spawn ids r).1.map (·.2.value))
  | .spawnWithId id r => w.accept ((w.spawnWithId id r).map (·.value))
  | .despawn id => w.accept ((w.despawn id).map (·.2))
  | .moveTo id goal => w.accept ((w.moveTo id goal).map (·.value))
  | .step => w.step
  | .drainEvents => w.drainEvents.2
  | .trimEvents keep => w.trimEvents keep

def run (w : World) (calls : List Call) : World :=
  calls.foldl perform w

/-- The worlds that a run may start from: those just created, with any seed, and those rebuilt
from any events. -/
inductive Started (range : ScaleRange) : World → Prop
  | created {seed : UInt64} {w : World} : create range seed = .ok w → Started range w
  | rebuilt {events : List Event} {l : Logged IndexWarning World} :
      replay range events = .ok l → Started range l.value

/-- Unless it deals with the log, a call makes some steps. -/
theorem steps_perform (sound : w.Integrity) {c : Call} (drains : c ≠ .drainEvents)
    (trims : ∀ keep, c ≠ .trimEvents keep) : ∃ events, Steps w events (w.perform c) := by
  have refused : ∃ events, Steps w events w := ⟨[], .nil w⟩
  cases c with
  | spawn ids r =>
    simp only [perform, spawn]
    cases h : w.spawnWithId ids.draw.1 r with
    | error cause => exact refused
    | ok l => exact ⟨_, steps_spawnWithId h⟩
  | spawnWithId id r =>
    simp only [perform]
    cases h : w.spawnWithId id r with
    | error cause => exact refused
    | ok l => exact ⟨_, steps_spawnWithId h⟩
  | despawn id =>
    simp only [perform]
    cases h : w.despawn id with
    | error cause => exact refused
    | ok found => exact steps_despawn sound h
  | moveTo id goal =>
    simp only [perform]
    cases h : w.moveTo id goal with
    | error cause => exact refused
    | ok l =>
      obtain ⟨old, hsteps⟩ := steps_moveTo h
      exact ⟨_, hsteps⟩
  | step => exact ⟨_, .single (.stepped w _ _)⟩
  | drainEvents => exact absurd rfl drains
  | trimEvents keep => exact absurd rfl (trims keep)

/-! ### Reachable worlds -/

/-- An event that can be made again makes some steps, or none. -/
theorem steps_applyEvent {l : Logged IndexWarning World} (sound : w.Integrity)
    (h : w.applyEvent e = .ok l) : ∃ events, Steps w events l.value := by
  cases e with
  | spawned id r => exact ⟨_, steps_spawnWithId h⟩
  | despawned id r =>
    simp only [applyEvent] at h
    split at h
    · cases hd : w.despawn id with
      | error cause => simp [hd, Except.map] at h
      | ok found =>
        simp only [hd, Except.map, Except.ok.injEq] at h
        rw [← h]
        exact steps_despawn sound hd
    · rw [← Except.ok.inj h]
      exact ⟨[], .nil w⟩
  | moved id before after =>
    obtain ⟨old, hsteps⟩ := steps_moveTo h
    exact ⟨_, hsteps⟩
  | stepped tick seed =>
    rw [← Except.ok.inj h]
    exact ⟨_, .single (.stepped w tick seed)⟩

/-- Applying events goes event by event. -/
theorem exists_of_applyEvents_cons {l : Logged IndexWarning World}
    (h : w.applyEvents (e :: events) = .ok l) : ∃ next last, w.applyEvent e = .ok next ∧
      next.value.applyEvents events = .ok last ∧
      l = { value := last.value, notices := next.notices ++ last.notices } := by
  simp only [applyEvents, bind, Except.bind] at h
  cases hfirst : w.applyEvent e with
  | error cause => simp [hfirst] at h
  | ok next =>
    simp only [hfirst] at h
    cases hrest : next.value.applyEvents events with
    | error cause => simp [hrest] at h
    | ok last =>
      simp only [hrest, pure, Except.pure, Except.ok.injEq] at h
      exact ⟨next, last, rfl, hrest, h.symm⟩

theorem steps_applyEvents {l : Logged IndexWarning World} (sound : w.Integrity)
    (h : w.applyEvents events = .ok l) : ∃ made, Steps w made l.value := by
  induction events generalizing w l with
  | nil =>
    rw [← Except.ok.inj h]
    exact ⟨[], .nil w⟩
  | cons e events ih =>
    obtain ⟨next, last, hfirst, hrest, rfl⟩ := exists_of_applyEvents_cons h
    obtain ⟨made, hmade⟩ := steps_applyEvent sound hfirst
    obtain ⟨more, hmore⟩ := ih (hmade.integrity sound) hrest
    exact ⟨_, hmade.append hmore⟩

/-- The worlds that any run can reach, whatever becomes of their logs. -/
inductive Reachable (range : ScaleRange) : World → Prop
  | created {seed : UInt64} {w : World} : create range seed = .ok w → Reachable range w
  | step {w u : World} {e : Event} : Reachable range w → Step w e u → Reachable range u
  | relogged {w : World} (log : Array Event) : Reachable range w → Reachable range { w with log }

theorem create_eq {seed : UInt64} (h : create range seed = .ok w) : ∃ index,
    Tree.create range = .ok index ∧ w = { registry := ∅, tick := 0, seed, log := #[], index } := by
  rw [create] at h
  cases hindex : Tree.create range with
  | error cause => simp [hindex] at h
  | ok index =>
    simp only [hindex, Except.ok.injEq] at h
    exact ⟨index, rfl, h.symm⟩

namespace Reachable

theorem integrity (h : Reachable range w) : w.Integrity := by
  induction h with
  | created hw =>
    obtain ⟨index, -, rfl⟩ := create_eq hw
    intro id r hr
    simp [get?] at hr
  | step _ hstep ih => exact hstep.integrity ih
  | relogged log _ ih => exact fun id r hr => ih hr

theorem range_index (h : Reachable range w) : w.index.range = range := by
  induction h with
  | created hw =>
    obtain ⟨index, hindex, rfl⟩ := create_eq hw
    exact (Tree.create_eq hindex).1
  | step _ hstep ih => exact hstep.range_index.trans ih
  | relogged log _ ih => exact ih

theorem steps (h : Reachable range w) (hsteps : Steps w events u) : Reachable range u := by
  induction hsteps with
  | nil => exact h
  | cons first _ ih => exact ih (h.step first)

theorem perform (h : Reachable range w) (c : Call) : Reachable range (w.perform c) := by
  by_cases drains : c = .drainEvents
  · rw [drains]
    exact h.relogged #[]
  · by_cases trims : ∃ keep, c = .trimEvents keep
    · obtain ⟨keep, rfl⟩ := trims
      exact h.relogged _
    · obtain ⟨events, hsteps⟩ := steps_perform h.integrity drains (not_exists.mp trims)
      exact h.steps hsteps

theorem run (h : Reachable range w) (calls : List Call) : Reachable range (w.run calls) := by
  induction calls generalizing w with
  | nil => exact h
  | cons c calls ih => exact ih (h.perform c)

end Reachable

/-- A rebuilt world comes from an empty one. -/
theorem exists_of_replay {l : Logged IndexWarning World} (h : replay range events = .ok l) :
    ∃ fresh, create range 0 = .ok fresh ∧ fresh.applyEvents events = .ok l := by
  simp only [replay, bind, Except.bind] at h
  cases hw : create range 0 with
  | error cause => simp [hw] at h
  | ok fresh =>
    simp only [hw] at h
    exact ⟨fresh, rfl, h⟩

theorem Started.reachable (h : Started range w) : Reachable range w := by
  cases h with
  | created hw => exact .created hw
  | @rebuilt events l hreplay =>
    obtain ⟨fresh, hfresh, applied⟩ := exists_of_replay hreplay
    have blank : Reachable range fresh := .created hfresh
    obtain ⟨made, hsteps⟩ := steps_applyEvents blank.integrity applied
    exact blank.steps hsteps

end World

end RailAtlas
