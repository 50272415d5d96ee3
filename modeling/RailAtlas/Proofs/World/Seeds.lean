import RailAtlas.Proofs.Ident.Mixing
import RailAtlas.Proofs.World.Rebuild

/-!
# The random stream of a world

The seed of a world enters its log with the passing of ticks only, while a rebuilt world starts
from seed zero. Whether rebuilding restores the stream is therefore settled by two questions: with
what seed the world was made, and whether a tick has passed in it. As the generator loses nothing,
streams that differ once never meet again, and each stream can be followed back to where it began.
-/

namespace RailAtlas

namespace World

variable {w u v : World} {e : Event} {events : List Event} {range : ScaleRange} {seed : UInt64}
variable {id : EntityId} {r : EntityRecord} {old goal : Point} {c : Call} {calls : List Call}

def Call.isStep : Call → Bool
  | step => true
  | _ => false

/-- Whether the log knows of a tick that passed. -/
def timed (w : World) : Bool :=
  w.log.toList.any Event.isStep

/-! ### What lets no tick pass -/

/-- A world has the seed of another one, and its log has ticks if that of the other one has. -/
structure Timeless (u w : World) : Prop where
  seed : u.seed = w.seed
  timed : u.timed = w.timed

namespace Timeless

theorem refl (w : World) : Timeless w w := ⟨rfl, rfl⟩

theorem trans (h : Timeless u w) (next : Timeless w v) : Timeless u v :=
  ⟨h.seed.trans next.seed, h.timed.trans next.timed⟩

/-- What every accepted outcome leaves alone, the operation leaves alone. -/
theorem accept {α : Type} {outcome : Except WorldError α} {result : α → World}
    (h : ∀ a, outcome = .ok a → Timeless (result a) w) :
    Timeless (w.accept (outcome.map result)) w := by
  cases outcome with
  | ok a => exact h a rfl
  | error cause => exact refl w

end Timeless

theorem Step.timed (h : Step w e u) : u.timed = (w.timed || e.isStep) := by
  rw [World.timed, h.log, Array.toList_push, List.any_append, World.timed]
  simp

theorem Step.timeless (h : Step w e u) (other : e.isStep = false) : Timeless u w := by
  refine ⟨?_, by rw [h.timed, other, Bool.or_false]⟩
  rw [h.seed]
  cases e with
  | stepped => cases other
  | spawned | despawned | moved => rfl

theorem timeless_spawnWithId {l : Logged IndexWarning World} (h : w.spawnWithId id r = .ok l) :
    Timeless l.value w := by
  cases steps_spawnWithId h with
  | cons first rest =>
    cases rest
    exact first.timeless rfl

theorem timeless_moveTo {l : Logged IndexWarning World} (h : w.moveTo id goal = .ok l) :
    Timeless l.value w := by
  obtain ⟨old, steps⟩ := steps_moveTo h
  cases steps with
  | cons first rest =>
    cases rest
    exact first.timeless rfl

theorem timeless_retire : Timeless (w.retire id) w := by
  cases known : w.get? id with
  | none =>
    rw [retire_of_none known]
    exact .refl w
  | some r =>
    refine ⟨simultaneous_retire.seed, ?_⟩
    rw [retire_of_some known]
    simp [World.timed, record, Event.isStep]

theorem timeless_foldl_retire (ids : List EntityId) : Timeless (ids.foldl World.retire w) w := by
  induction ids generalizing w with
  | nil => exact .refl w
  | cons x ids ih => exact ih.trans timeless_retire

theorem timeless_despawn (h : w.despawn id = .ok (r, u)) : Timeless u w := by
  rw [despawn] at h
  cases known : w.get? id with
  | none => simp [known] at h
  | some found =>
    simp only [known, Except.ok.injEq, Prod.mk.injEq] at h
    rw [← h.2]
    exact timeless_retire.trans (timeless_foldl_retire _)

/-- Apart from the identifier that is drawn, a spawn is one under a given identifier. -/
theorem perform_spawn {ids : IdStream} :
    w.perform (.spawn ids r) = w.perform (.spawnWithId ids.draw.1 r) := by
  simp only [perform, spawn]
  cases w.spawnWithId ids.draw.1 r <;> rfl

/-- Operations let no tick pass, accepted or not. -/
theorem timeless_perform (other : c.isStep = false) (drains : c ≠ .drainEvents)
    (trims : ∀ keep, c ≠ .trimEvents keep) : Timeless (w.perform c) w := by
  cases c with
  | spawn ids r =>
    rw [perform_spawn]
    exact .accept fun _ h => timeless_spawnWithId h
  | spawnWithId id r => exact .accept fun _ h => timeless_spawnWithId h
  | despawn id => exact .accept fun _ h => timeless_despawn h
  | moveTo id goal => exact .accept fun _ h => timeless_moveTo h
  | step => cases other
  | drainEvents => exact absurd rfl drains
  | trimEvents keep => exact absurd rfl (trims keep)

/-! ### Seeds and ticks in a run -/

theorem seed_perform : (w.perform c).seed = if c.isStep then splitMix w.seed else w.seed := by
  cases c with
  | step | drainEvents | trimEvents => rfl
  | spawn | spawnWithId | despawn | moveTo =>
    change (w.perform _).seed = w.seed
    exact (timeless_perform rfl (by simp) (by simp)).seed

/-- Doing something at some elements of a list is doing it as often as there are such elements. -/
theorem foldl_eq_iterate {α β : Type} (f : α → α) (p : β → Bool) (xs : List β) (a : α) :
    xs.foldl (fun a x => if p x then f a else a) a = f^[xs.countP p] a := by
  induction xs generalizing a with
  | nil => rfl
  | cons x xs ih =>
    rw [List.foldl_cons, ih, List.countP_cons]
    cases p x <;> simp

/-- A run draws one seed for every tick, whatever else happens. -/
theorem seed_run (w : World) (calls : List Call) :
    (w.run calls).seed = splitMix^[calls.countP Call.isStep] w.seed := by
  rw [← foldl_eq_iterate]
  exact (List.foldl_hom World.seed fun w c => (@seed_perform w c).symm).symm

/-- As long as nothing is taken from the log, it knows of the ticks that passed. -/
theorem timed_run (drains : Call.drainEvents ∉ calls)
    (trims : ∀ keep, Call.trimEvents keep ∉ calls) :
    (w.run calls).timed = (w.timed || calls.any Call.isStep) := by
  induction calls generalizing w with
  | nil => simp [World.run]
  | cons c calls ih =>
    simp only [List.mem_cons, not_or] at drains trims
    have first : (w.perform c).timed = (w.timed || c.isStep) := by
      cases passes : c.isStep with
      | false =>
        have timeless := @timeless_perform w c passes (Ne.symm drains.1) fun keep =>
          Ne.symm (trims keep).1
        rw [timeless.timed, Bool.or_false]
      | true =>
        cases c with
        | step => exact (Step.stepped w _ _).timed
        | _ => cases passes
    rw [World.run, List.foldl_cons, ← World.run, ih drains.2 fun keep => (trims keep).2, first,
      List.any_cons, Bool.or_assoc]

/-! ### Seeds of rebuilt worlds -/

theorem seed_applyEvent {l : Logged IndexWarning World} (h : w.applyEvent e = .ok l) :
    l.value.seed = seedAfter w.seed e := by
  cases e with
  | spawned id r => exact (timeless_spawnWithId h).seed
  | despawned id r =>
    simp only [applyEvent] at h
    split at h
    · cases hd : w.despawn id with
      | error cause => simp [hd, Except.map] at h
      | ok found =>
        simp only [hd, Except.map, Except.ok.injEq] at h
        rw [← h]
        exact (timeless_despawn hd).seed
    · rw [← Except.ok.inj h]
      rfl
  | moved id before after => exact (timeless_moveTo h).seed
  | stepped tick seed =>
    rw [← Except.ok.inj h]
    rfl

theorem seed_applyEvents {l : Logged IndexWarning World} (h : w.applyEvents events = .ok l) :
    l.value.seed = events.foldl seedAfter w.seed := by
  induction events generalizing w l with
  | nil =>
    rw [← Except.ok.inj h]
    rfl
  | cons e events ih =>
    simp only [applyEvents, bind, Except.bind] at h
    cases hfirst : w.applyEvent e with
    | error cause => simp [hfirst] at h
    | ok next =>
      simp only [hfirst] at h
      cases hrest : next.value.applyEvents events with
      | error cause => simp [hrest] at h
      | ok last =>
        simp only [hrest, pure, Except.pure, Except.ok.injEq] at h
        have onward := ih hrest
        rw [← h, List.foldl_cons, ← seed_applyEvent hfirst, onward]

theorem foldl_seedAfter_of_timeless (h : events.any Event.isStep = false) (seed : UInt64) :
    events.foldl seedAfter seed = seed := by
  induction events generalizing seed with
  | nil => rfl
  | cons e events ih =>
    rw [List.any_cons, Bool.or_eq_false_iff] at h
    cases e with
    | stepped => cases h.1
    | spawned | despawned | moved => exact ih h.2 seed

/-- A world rebuilt from events without a tick has seed zero. -/
theorem seed_replay_of_timeless {l : Logged IndexWarning World} (h : replay range events = .ok l)
    (timeless : events.any Event.isStep = false) : l.value.seed = 0 := by
  simp only [replay, bind, Except.bind] at h
  cases hw : create range 0 with
  | error cause => simp [hw] at h
  | ok fresh =>
    simp only [hw] at h
    obtain ⟨index, -, rfl⟩ := create_eq hw
    rw [seed_applyEvents h, foldl_seedAfter_of_timeless timeless]

/-- Streams that differ once never meet again. -/
theorem seed_run_eq_iff : (u.run calls).seed = (w.run calls).seed ↔ u.seed = w.seed := by
  rw [seed_run, seed_run]
  exact (splitMix_injective.iterate _).eq_iff

theorem drained_eq_nil (drains : Call.drainEvents ∉ calls) : w.drained calls = [] := by
  induction calls generalizing w with
  | nil => rfl
  | cons c calls ih =>
    simp only [List.mem_cons, not_or] at drains
    have nothing : w.handedOut c = [] := by
      cases c with
      | drainEvents => exact absurd rfl drains.1
      | _ => rfl
    rw [drained, nothing, ih drains.2, List.nil_append]

theorem Agrees.stateHash (h : Agrees u w) (same : u.seed = w.seed) : u.stateHash = w.stateHash := by
  rw [World.stateHash, World.stateHash, encoding, encoding, entities, entities, h.registry, h.tick,
    same]

/-- Replaying the whole log of a world that was made with some seed succeeds and rebuilds its
registry, its clock, its log and its index. The seed is restored, and with it the fingerprint and
all seeds of later runs, exactly if the world was made with seed zero or a tick has passed in it. -/
theorem replay_restores_seed_iff (created : create range seed = .ok w)
    (drains : Call.drainEvents ∉ calls) (trims : ∀ keep, Call.trimEvents keep ∉ calls) :
    let u := w.run calls
    ∃ l, replay range u.log.toList = .ok l ∧ l.value.registry = u.registry ∧
      l.value.tick = u.tick ∧ l.value.log.toList = u.log.toList ∧ l.value.index = u.index ∧
      (l.value.seed = u.seed ↔ seed = 0 ∨ .step ∈ calls) ∧
      (seed = 0 ∨ .step ∈ calls → l.value.stateHash = u.stateHash) ∧
      ∀ later, (l.value.run later).seed = (u.run later).seed ↔ seed = 0 ∨ .step ∈ calls := by
  intro u
  have started : Started range w := .created created
  have recorded : Recorded range ([] ++ w.log.toList) w := started.recorded
  have whole : Recorded range u.log.toList u := by
    have run := recorded.run started.reachable trims
    rwa [drained_eq_nil drains, List.nil_append, List.nil_append] at run
  obtain ⟨l, replayed, agrees, log, passed⟩ := whole.replay
  obtain ⟨index, -, rfl⟩ := create_eq created
  have timed : u.log.toList.any Event.isStep = calls.any Call.isStep :=
    timed_run drains trims
  have step_iff : calls.any Call.isStep = true ↔ .step ∈ calls := by
    rw [List.any_eq_true]
    constructor
    · rintro ⟨c, mem, passes⟩
      cases c with
      | step => exact mem
      | _ => cases passes
    · exact fun mem => ⟨.step, mem, rfl⟩
  have seed_iff : l.value.seed = u.seed ↔ seed = 0 ∨ .step ∈ calls := by
    rw [← step_iff]
    cases ticks : calls.any Call.isStep with
    | true => simp [passed (timed.trans ticks)]
    | false =>
      have unchanged : u.seed = seed := by
        rw [seed_run, List.countP_eq_zero.mpr (by simpa using ticks), Function.iterate_zero_apply]
      rw [seed_replay_of_timeless replayed (timed.trans ticks), unchanged]
      simp [eq_comm]
  refine ⟨l, replayed, agrees.registry, agrees.tick, log, agrees.index, seed_iff, ?_, ?_⟩
  · exact fun restored => agrees.stateHash (seed_iff.mpr restored)
  · exact fun later => seed_run_eq_iff.trans seed_iff

/-- A world with a station and a tick gets its seed back. -/
theorem replay_restores_seed_iff_station :
    let calls : List Call := [.spawnWithId (.ofNat 1) ⟨.station, ⟨2⟩, .point ⟨1, 1⟩⟩, .step]
    ∃ w l, create .standard 7 = .ok w ∧ replay .standard (w.run calls).log.toList = .ok l ∧
      l.value.seed = (w.run calls).seed := by
  intro calls
  have created : create .standard 7 = .ok _ := rfl
  obtain ⟨l, replayed, -, -, -, -, restored, -⟩ :=
    @replay_restores_seed_iff _ _ _ calls created (by simp [calls]) (by simp [calls])
  exact ⟨_, l, created, replayed, restored.mpr (.inr (by simp [calls]))⟩

/-- A world in which no tick has passed does not get its seed back. -/
theorem seed_lost_without_tick :
    let calls : List Call := [.spawnWithId (.ofNat 1) ⟨.station, ⟨2⟩, .point ⟨1, 1⟩⟩]
    ∃ w l, create .standard 7 = .ok w ∧ replay .standard (w.run calls).log.toList = .ok l ∧
      (w.run calls).seed = 7 ∧ l.value.seed = 0 ∧
      l.value.stateHash ≠ (w.run calls).stateHash ∧
      (l.value.run [.step]).seed ≠ ((w.run calls).run [.step]).seed :=
  ⟨_, _, rfl, rfl, rfl, rfl, by decide +kernel, by decide +kernel⟩

/-! ### Streams stay apart -/

theorem seed_of_create (created : create range seed = .ok w) : w.seed = seed := by
  obtain ⟨index, -, rfl⟩ := create_eq created
  rfl

/-- Taken back by as many steps as a run has made, the seed of a world is the one it had before. -/
theorem unmix_seed_run (w : World) (calls : List Call) :
    unmix^[calls.countP Call.isStep] (w.run calls).seed = w.seed := by
  rw [seed_run]
  exact unmix_splitMix.iterate _ w.seed

/-- The generator only permutes the words. So the seed of a world after some number of steps tells
the seed that it was made with, and worlds that were made with different seeds have different ones
after equally many steps, whatever else has been called in between. -/
theorem streams_never_merge :
    Function.Bijective splitMix ∧
    ∀ ⦃range range' : ScaleRange⦄ ⦃seed seed' : UInt64⦄ ⦃w u : World⦄,
      create range seed = .ok w → create range' seed' = .ok u →
      ∀ ⦃n : Nat⦄ ⦃calls calls' : List Call⦄,
        calls.countP Call.isStep = n → calls'.countP Call.isStep = n →
        unmix^[n] (w.run calls).seed = seed ∧
          (seed ≠ seed' → (w.run calls).seed ≠ (u.run calls').seed) := by
  refine ⟨splitMix_bijective, ?_⟩
  intro range range' seed seed' w u created created' n calls calls' steps steps'
  have back := unmix_seed_run w calls
  have back' := unmix_seed_run u calls'
  rw [steps, seed_of_create created] at back
  rw [steps', seed_of_create created'] at back'
  refine ⟨back, fun apart same => apart ?_⟩
  rw [← back, same, back']

/-- Two steps each, with a station spawned in one of the worlds. -/
theorem streams_never_merge_station :
    let calls : List Call := [.step, .spawnWithId (.ofNat 1) ⟨.station, ⟨2⟩, .point ⟨1, 1⟩⟩, .step]
    let calls' : List Call := [.step, .step]
    ∃ w u, create .standard 7 = .ok w ∧ create ⟨4, 3⟩ 8 = .ok u ∧
      calls.countP Call.isStep = 2 ∧ calls'.countP Call.isStep = 2 ∧
      unmix (unmix (w.run calls).seed) = 7 ∧ (w.run calls).seed ≠ (u.run calls').seed := by
  intro calls calls'
  have created : create .standard 7 = .ok _ := rfl
  have created' : create ⟨4, 3⟩ 8 = .ok _ := rfl
  have steps : calls.countP Call.isStep = 2 := rfl
  have steps' : calls'.countP Call.isStep = 2 := rfl
  obtain ⟨back, apart⟩ := streams_never_merge.2 created created' steps steps'
  exact ⟨_, _, created, created', steps, steps', back, apart (by decide)⟩

end World

end RailAtlas
