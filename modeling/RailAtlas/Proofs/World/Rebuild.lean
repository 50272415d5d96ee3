import RailAtlas.Proofs.World.Alike
import RailAtlas.World.Fingerprint

/-!
# Rebuilding a world from its log

A step depends on the registry, the clock and the index, not on the seed or on what the log has
kept. So two worlds that agree on these make the same step by the same event, down to the labels of
the index. Making an event again through the regular operations is this very step: nothing refers
to an entity that was taken out, so the cascade that despawning starts is empty when the event is
made again.

`Recorded range events w` says that some events lead from a created world to `w`. The log of a
started world records it, every call carries the record on, and replaying a record rebuilds the
world.
-/

namespace RailAtlas

namespace World

variable {w u w' : World} {e : Event} {events more : List Event} {range : ScaleRange}
variable {id : EntityId} {r : EntityRecord} {old goal : Point}

/-- Two worlds are alike in everything but their seeds and logs. -/
structure Agrees (u w : World) : Prop where
  registry : u.registry = w.registry
  tick : u.tick = w.tick
  index : u.index = w.index

namespace Agrees

theorem refl (w : World) : Agrees w w := ⟨rfl, rfl, rfl⟩

theorem alike (h : Agrees u w) : Alike u w := ⟨h.registry, h.index⟩

theorem of_alike (h : Alike u w) (tick : u.tick = w.tick) : Agrees u w :=
  ⟨h.registry, tick, h.index⟩

theorem get?_eq (h : Agrees u w) : u.get? id = w.get? id :=
  h.alike.get?_eq

theorem fits_iff (h : Agrees u w) {s : Shape} : u.Fits s ↔ w.Fits s := by
  cases s <;> simp only [Fits, IsNode, h.alike.containsPoint_eq, h.get?_eq]

theorem unreferenced_iff (h : Agrees u w) : u.Unreferenced id ↔ w.Unreferenced id := by
  simp only [Unreferenced, h.get?_eq]

theorem register (h : Agrees u w) : Agrees (u.register id r).value (w.register id r).value :=
  .of_alike h.alike.register h.tick

theorem retire (h : Agrees u w) : Agrees (u.retire id) (w.retire id) :=
  .of_alike h.alike.retire
    (simultaneous_retire.tick.trans (h.tick.trans simultaneous_retire.tick.symm))

theorem relocate (h : Agrees u w) :
    Agrees (u.relocate id r old goal).value (w.relocate id r old goal).value :=
  .of_alike h.alike.relocate
    (simultaneous_relocate.tick.trans (h.tick.trans simultaneous_relocate.tick.symm))

/-- Agreeing worlds make the same steps. -/
theorem step (h : Agrees u w) (hstep : Step w e w') : ∃ u', Step u e u' ∧ Agrees u' w' := by
  cases hstep with
  | spawned fresh formed fits =>
    exact ⟨_, .spawned (h.get?_eq.trans fresh) formed (h.fits_iff.mpr fits), h.register⟩
  | despawned known unreferenced =>
    exact ⟨_, .despawned (h.get?_eq.trans known) (h.unreferenced_iff.mpr unreferenced), h.retire⟩
  | @moved id r old goal known located inside =>
    have fits : w.Fits (.point goal) := inside
    exact ⟨_, .moved (h.get?_eq.trans known) located (h.fits_iff.mpr fits), h.relocate⟩
  | stepped tick seed => exact ⟨_, .stepped u tick seed, h.registry, rfl, h.index⟩

theorem steps (h : Agrees u w) (hsteps : Steps w events w') :
    ∃ u', Steps u events u' ∧ Agrees u' w' := by
  induction hsteps generalizing u with
  | nil => exact ⟨u, .nil u, h⟩
  | cons first _ ih =>
    obtain ⟨next, hfirst, hnext⟩ := h.step first
    obtain ⟨u', hrest, hlast⟩ := ih hnext
    exact ⟨u', .cons hfirst hrest, hlast⟩

end Agrees

/-! ### Seeds -/

def seedAfter (seed : UInt64) : Event → UInt64
  | .stepped _ seed => seed
  | _ => seed

theorem Step.seed (h : Step w e u) : u.seed = seedAfter w.seed e := by
  cases h with
  | spawned => rfl
  | despawned => exact simultaneous_retire.seed
  | moved => exact simultaneous_relocate.seed
  | stepped => rfl

theorem Steps.seed (h : Steps w events u) : u.seed = events.foldl seedAfter w.seed := by
  induction h with
  | nil => rfl
  | cons first _ ih => rw [ih, first.seed, List.foldl_cons]

/-- Once time has passed, the first seed is forgotten. -/
theorem foldl_seedAfter_of_isStep (h : events.any Event.isStep = true) (seed other : UInt64) :
    events.foldl seedAfter seed = events.foldl seedAfter other := by
  induction events generalizing seed other with
  | nil => simp at h
  | cons e events ih =>
    cases e with
    | stepped => rfl
    | spawned | despawned | moved => exact ih (by simpa [Event.isStep] using h) _ _

/-! ### Making events again -/

/-- The regular operation that an event stands for makes its step. -/
theorem Step.applyEvent (h : Step w e u) : ∃ l, w.applyEvent e = .ok l ∧ l.value = u := by
  cases h with
  | @spawned id r fresh formed fits =>
    have spawnable := requireSpawnable_eq_ok_iff.mpr ⟨fresh, formed, fits⟩
    refine ⟨w.register id r, ?_, rfl⟩
    rw [World.applyEvent, spawnWithId, spawnable]
    rfl
  | @despawned id r known unreferenced =>
    -- nothing refers to the entity, so nothing is taken out along with it
    have alone : w.dependants id r = [] := by
      rw [dependants]
      split
      · apply List.eq_nil_iff_forall_not_mem.mpr
        intro x hx
        obtain ⟨edge, hedge, touches⟩ := mem_touching.mp hx
        simp [unreferenced hedge] at touches
      · rfl
    refine ⟨.quiet (w.retire id), ?_, rfl⟩
    have held : w.registry.contains id = true := by rw [registry_contains, known]; rfl
    simp [World.applyEvent, held, despawn, known, alone, Except.map]
  | @moved id r old goal known located inside =>
    have movable := requireMovable_eq_ok_iff.mpr ⟨known, located, inside⟩
    refine ⟨w.relocate id r old goal, ?_, rfl⟩
    rw [World.applyEvent, moveTo, movable]
    rfl
  | stepped tick seed => exact ⟨_, rfl, rfl⟩

theorem Steps.applyEvents (h : Steps w events u) :
    ∃ l, w.applyEvents events = .ok l ∧ l.value = u := by
  induction h with
  | nil w => exact ⟨.quiet w, rfl, rfl⟩
  | cons first _ ih =>
    obtain ⟨next, hnext, rfl⟩ := first.applyEvent
    obtain ⟨last, hlast, rfl⟩ := ih
    refine ⟨{ value := last.value, notices := next.notices ++ last.notices }, ?_, rfl⟩
    rw [World.applyEvents, hnext]
    simp only [bind, Except.bind, hlast]
    rfl

/-! ### Records -/

/-- Some events lead from a created world to a world, up to its log. -/
def Recorded (range : ScaleRange) (events : List Event) (w : World) : Prop :=
  ∃ seed fresh last, create range seed = .ok fresh ∧ Steps fresh events last ∧ Agrees last w ∧
    last.seed = w.seed

theorem Started.recorded (h : Started range w) : Recorded range w.log.toList w := by
  cases h with
  | @created seed w hw =>
    obtain ⟨index, -, rfl⟩ := create_eq hw
    exact ⟨seed, _, _, hw, .nil _, .refl _, rfl⟩
  | @rebuilt events l hreplay =>
    simp only [replay, bind, Except.bind] at hreplay
    cases hw : create range 0 with
    | error cause => simp [hw] at hreplay
    | ok fresh =>
      simp only [hw] at hreplay
      have reachable : Reachable range fresh := .created hw
      obtain ⟨made, hsteps⟩ := steps_applyEvents reachable.integrity hreplay
      have hlog := hsteps.log
      obtain ⟨index, -, rfl⟩ := create_eq hw
      rw [hlog]
      exact ⟨0, _, _, hw, hsteps, .refl _, rfl⟩

namespace Recorded

/-- Steps extend a record. -/
theorem steps (h : Recorded range events w) (hsteps : Steps w more u) :
    Recorded range (events ++ more) u := by
  obtain ⟨seed, fresh, last, hfresh, hpast, hagrees, hseed⟩ := h
  obtain ⟨next, hnext, hagrees'⟩ := hagrees.steps hsteps
  refine ⟨seed, fresh, next, hfresh, hpast.append hnext, hagrees', ?_⟩
  rw [hnext.seed, hsteps.seed, hseed]

theorem relog (h : Recorded range events w) (log : Array Event) :
    Recorded range events { w with log } := by
  obtain ⟨seed, fresh, last, hfresh, hpast, hagrees, hseed⟩ := h
  exact ⟨seed, fresh, last, hfresh, hpast, ⟨hagrees.registry, hagrees.tick, hagrees.index⟩, hseed⟩

/-- Replaying a record rebuilds the world. -/
theorem replay (h : Recorded range events w) : ∃ l, World.replay range events = .ok l ∧
    Agrees l.value w ∧ l.value.log.toList = events ∧
      (events.any Event.isStep = true → l.value.seed = w.seed) := by
  obtain ⟨seed, fresh, last, hfresh, hpast, hagrees, hseed⟩ := h
  obtain ⟨index, hindex, rfl⟩ := create_eq hfresh
  let blank : World := { registry := ∅, tick := 0, seed := 0, log := #[], index }
  have hblank : create range 0 = .ok blank := by rw [create, hindex]
  have alike : Agrees blank { registry := ∅, tick := 0, seed, log := #[], index } :=
    ⟨rfl, rfl, rfl⟩
  obtain ⟨final, hfinal, hsame⟩ := alike.steps hpast
  obtain ⟨l, hl, rfl⟩ := hfinal.applyEvents
  refine ⟨l, ?_, ⟨hsame.registry.trans hagrees.registry, hsame.tick.trans hagrees.tick,
    hsame.index.trans hagrees.index⟩, ?_, ?_⟩
  · rw [World.replay, hblank]
    exact hl
  · simp [hfinal.log, blank]
  · intro passed
    rw [← hseed, hfinal.seed, hpast.seed]
    exact foldl_seedAfter_of_isStep passed _ _

end Recorded

/-! ### Whole runs -/

/-- The events that a call hands out. -/
def handedOut (w : World) : Call → List Event
  | .drainEvents => w.drainEvents.1.toList
  | _ => []

/-- The events that are handed out during a run, oldest first. -/
def drained (w : World) : List Call → List Event
  | [] => []
  | c :: calls => w.handedOut c ++ (w.perform c).drained calls

/-- Every call carries the record on, unless it forgets events. What was handed out and what the
log still has make up the record. -/
theorem Recorded.perform (h : Recorded range (events ++ w.log.toList) w) (sound : w.Integrity)
    {c : Call} (keeps : ∀ keep, c ≠ .trimEvents keep) :
    Recorded range (events ++ w.handedOut c ++ (w.perform c).log.toList) (w.perform c) := by
  by_cases drains : c = .drainEvents
  · subst drains
    have handed : w.handedOut .drainEvents = w.log.toList := rfl
    have emptied : w.perform .drainEvents = { w with log := #[] } := rfl
    rw [handed, emptied]
    simpa using h.relog #[]
  · have nothing : w.handedOut c = [] := by
      cases c with
      | drainEvents => exact absurd rfl drains
      | _ => rfl
    obtain ⟨made, hsteps⟩ := steps_perform sound drains keeps
    rw [nothing, List.append_nil, hsteps.log, ← List.append_assoc]
    exact h.steps hsteps

theorem Recorded.run (h : Recorded range (events ++ w.log.toList) w) (reachable : Reachable range w)
    {calls : List Call} (keeps : ∀ keep, Call.trimEvents keep ∉ calls) :
    Recorded range (events ++ (w.drained calls ++ (w.run calls).log.toList)) (w.run calls) := by
  induction calls generalizing w events with
  | nil => simpa [drained, World.run] using h
  | cons c calls ih =>
    have first := h.perform reachable.integrity fun keep same =>
      keeps keep (same ▸ List.mem_cons_self)
    have rest := ih first (reachable.perform c) fun keep hmem =>
      keeps keep (List.mem_cons_of_mem c hmem)
    simpa [drained, World.run] using rest

/-- Replaying all events of a run, those handed out and those left, rebuilds the world: the
registry, the clock, the log and the index with all its labels. The seed and the fingerprint are
those of the world if time has passed. -/
theorem replay_rebuilds (started : Started range w) (calls : List Call)
    (keeps : ∀ keep, Call.trimEvents keep ∉ calls) :
    let u := w.run calls
    let all := w.drained calls ++ u.log.toList
    ∃ l, replay range all = .ok l ∧ l.value.registry = u.registry ∧ l.value.tick = u.tick ∧
      l.value.log.toList = all ∧ l.value.index = u.index ∧
      (all.any Event.isStep = true →
        l.value.seed = u.seed ∧ l.value.stateHash = u.stateHash) := by
  intro u all
  have recorded : Recorded range ([] ++ w.log.toList) w := started.recorded
  obtain ⟨l, hl, agrees, hlog, hseed⟩ := (recorded.run started.reachable keeps).replay
  refine ⟨l, hl, agrees.registry, agrees.tick, hlog, agrees.index, ?_⟩
  intro passed
  have same : l.value.seed = u.seed := hseed passed
  refine ⟨same, ?_⟩
  rw [stateHash, stateHash, encoding, encoding, entities, entities, agrees.registry, agrees.tick,
    same]

/-- After the log was handed out an edge is told to move, which it cannot, and a rail node is
despawned with the edge at it. The rebuilt world has neither, and the same index and fingerprint. -/
theorem replay_rebuilds_cascade :
    let east : EntityRecord := ⟨.railNode, ⟨2⟩, .point ⟨1, 1⟩⟩
    let west : EntityRecord := ⟨.railNode, ⟨2⟩, .point ⟨-5, 3⟩⟩
    let rail : EntityRecord := ⟨.railEdge, ⟨2⟩, .edge (.ofNat 1) (.ofNat 2)⟩
    let station : EntityRecord := ⟨.station, ⟨3⟩, .point ⟨-1, -1⟩⟩
    let calls : List Call :=
      [.spawnWithId (.ofNat 1) east, .spawnWithId (.ofNat 2) west, .spawnWithId (.ofNat 3) rail,
        .step, .drainEvents, .moveTo (.ofNat 3) .origin, .moveTo (.ofNat 1) ⟨5, -5⟩,
        .despawn (.ofNat 1), .spawnWithId (.ofNat 4) station, .step]
    ∃ w, create ⟨4, 3⟩ 7 = .ok w ∧ (∀ keep, Call.trimEvents keep ∉ calls) ∧
      let u := w.run calls
      w.drained calls = [.spawned (.ofNat 1) east, .spawned (.ofNat 2) west,
        .spawned (.ofNat 3) rail, .stepped 1 (splitMix 7)] ∧
      u.log.toList = [.moved (.ofNat 1) ⟨1, 1⟩ ⟨5, -5⟩, .despawned (.ofNat 3) rail,
        .despawned (.ofNat 1) { east with shape := .point ⟨5, -5⟩ },
        .spawned (.ofNat 4) station, .stepped 2 u.seed] ∧
      ∃ l, replay ⟨4, 3⟩ (w.drained calls ++ u.log.toList) = .ok l ∧
        l.value.registry = u.registry ∧ l.value.index = u.index ∧ l.value.tick = 2 ∧
        l.value.stateHash = u.stateHash := by
  intro east west rail station calls
  have created : create ⟨4, 3⟩ 7 = .ok _ := rfl
  have keeps : ∀ keep, Call.trimEvents keep ∉ calls := by simp [calls]
  refine ⟨_, created, keeps, ?drained, ?left, ?rebuilt⟩
  case drained => decide +kernel
  case left => decide +kernel
  case rebuilt =>
    obtain ⟨l, hl, registry, tick, -, index, passed⟩ :=
      replay_rebuilds (.created created) calls keeps
    exact ⟨l, hl, registry, index, tick.trans (by decide +kernel), (passed (by decide +kernel)).2⟩

end World

end RailAtlas
