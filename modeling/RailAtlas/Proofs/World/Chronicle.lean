import Mathlib.Data.List.Sort
import RailAtlas.Proofs.World.Rebuild
import RailAtlas.Service.Clock

/-!
# The log is the history

`Logs` says which events a call contributes to the history of a world, and `Chronicle` collects
them over a run. Draining hands the log out and trimming forgets its oldest events; neither of them
contributes anything. `Chronicle` does not look at the log, so it can be compared with what becomes
of the log: the events that were taken from it, and after them those that are left.

Where events are forgotten by the ticks of a clock alone, which keep a fixed number of them, the
log ends with everything that was recorded since it was last drained, and forgets nothing of it
before that number is exceeded. So what a tick leaves is fixed by the history, too.
-/

namespace RailAtlas

namespace World

variable {w u v w₀ : World} {range : ScaleRange} {id : EntityId} {r : EntityRecord} {c : Call}
variable {events more : List Event} {calls : List Call} {retention : Nat}

/-! ### What calls contribute -/

/-- Whether a call is accepted. A step is, and so is whatever deals with the log. -/
def accepts (w : World) : Call → Bool
  | .spawn ids r => (w.spawn ids r).1.isOk
  | .spawnWithId id r => (w.spawnWithId id r).isOk
  | .despawn id => (w.despawn id).isOk
  | .moveTo id goal => (w.moveTo id goal).isOk
  | .step | .drainEvents | .trimEvents _ => true

/-- The registered edges at an entity, if it is a rail node, in ascending order. -/
structure EdgesAt (w : World) (id : EntityId) (edges : List (EntityId × EntityRecord)) : Prop where
  ascending : edges.Pairwise fun a b => a.1.bits.toNat < b.1.bits.toNat
  mem_iff : ∀ x edge, (x, edge) ∈ edges ↔
    w.IsNode id ∧ w.get? x = some edge ∧ edge.touches id = true

/-- What a call contributes to the history of a world. -/
inductive Logs (w : World) : Call → List Event → Prop
  | spawned {ids : IdStream} {r : EntityRecord} {id : EntityId} {l : Logged IndexWarning World} :
      (w.spawn ids r).1 = .ok (id, l) → Logs w (.spawn ids r) [.spawned id r]
  | spawnedWithId {id : EntityId} {r : EntityRecord} {l : Logged IndexWarning World} :
      w.spawnWithId id r = .ok l → Logs w (.spawnWithId id r) [.spawned id r]
  | despawned {id : EntityId} {r : EntityRecord} {u : World}
      {edges : List (EntityId × EntityRecord)} :
      w.despawn id = .ok (r, u) → w.EdgesAt id edges →
      Logs w (.despawn id) (edges.map (fun (x, edge) => .despawned x edge) ++ [.despawned id r])
  | moved {id : EntityId} {goal old : Point} {l : Logged IndexWarning World} :
      w.moveTo id goal = .ok l → w.positionOf? id = some old →
      Logs w (.moveTo id goal) [.moved id old goal]
  | stepped : Logs w .step [.stepped (w.tick + 1) (splitMix w.seed)]
  | drained : Logs w .drainEvents []
  | trimmed {keep : Nat} : Logs w (.trimEvents keep) []
  | refused {c : Call} : w.accepts c = false → Logs w c []

/-- The history of a run: what its calls contribute, one after the other. -/
inductive Chronicle : World → List Call → List Event → Prop
  | nil {w : World} : Chronicle w [] []
  | cons {w : World} {c : Call} {calls : List Call} {events more : List Event} :
      Logs w c events → Chronicle (w.perform c) calls more →
      Chronicle w (c :: calls) (events ++ more)

/-- The events that a call takes from the log: draining hands out all, trimming forgets the oldest
ones. -/
def released (w : World) : Call → List Event
  | .trimEvents keep => w.log.toList.take (w.excess keep)
  | c => w.handedOut c

/-- The events that are taken from the log during a run, oldest first. -/
def allReleased (w : World) : List Call → List Event
  | [] => []
  | c :: calls => w.released c ++ (w.perform c).allReleased calls

/-! ### One call -/

theorem log_trimEvents {keep : Nat} :
    (w.trimEvents keep).log.toList = w.log.toList.drop (w.excess keep) := by
  rw [trimEvents, Array.toList_extract, List.extract_eq_take_drop, List.take_of_length_le]
  simp

theorem exists_of_isOk {α : Type} {outcome : Except WorldError α} (h : outcome.isOk = true) :
    ∃ a, outcome = .ok a := by
  cases outcome with
  | error cause => cases h
  | ok a => exact ⟨a, rfl⟩

theorem accept_of_not_isOk {α : Type} {outcome : Except WorldError α} {next : α → World}
    (h : outcome.isOk = false) : w.accept (outcome.map next) = w := by
  cases outcome with
  | error cause => rfl
  | ok a => cases h

/-- A call that is refused changes nothing. -/
theorem perform_of_refused (refused : w.accepts c = false) : w.perform c = w := by
  cases c with
  | spawn | spawnWithId | despawn | moveTo => exact accept_of_not_isOk refused
  | step | drainEvents | trimEvents => cases refused

/-- Taking out some distinct entities logs their records, in the order in which they go. -/
theorem log_foldl_retire {found : List (EntityId × EntityRecord)}
    (distinct : (found.map (·.1)).Nodup) (known : ∀ x s, (x, s) ∈ found → w.get? x = some s) :
    ((found.map (·.1)).foldl World.retire w).log.toList =
      w.log.toList ++ found.map fun (x, s) => .despawned x s := by
  induction found generalizing w with
  | nil => simp
  | cons first found ih =>
    obtain ⟨x, s⟩ := first
    rw [List.map_cons, List.nodup_cons] at distinct
    have here : w.get? x = some s := known x s List.mem_cons_self
    have logged : (w.retire x).log = w.log.push (.despawned x s) := by
      rw [retire_of_some here]
      rfl
    have still : ∀ y t, (y, t) ∈ found → (w.retire x).get? y = some t := by
      intro y t hy
      rw [get?_retire, if_neg, known y t (List.mem_cons_of_mem _ hy)]
      rintro rfl
      exact distinct.1 (List.mem_map.mpr ⟨_, hy, rfl⟩)
    rw [List.map_cons, List.foldl_cons, ih distinct.2 still, logged]
    simp

/-- The dependants of an entity are the edges at it. -/
theorem exists_edgesAt (known : w.get? id = some r) :
    ∃ edges, w.EdgesAt id edges ∧ w.dependants id r = edges.map (·.1) := by
  by_cases node : r.kind = .railNode
  · refine ⟨w.entities.filter fun (_, s) => s.touches id, ⟨?_, ?_⟩, ?_⟩
    · refine (Std.ExtTreeMap.ordered_keys_toList.imp ?_).filter _
      exact fun before => Nat.compare_eq_lt.mp before
    · intro x edge
      rw [List.mem_filter, mem_entities]
      exact ⟨fun found => ⟨⟨r, known, node⟩, found⟩, fun found => found.2⟩
    · rw [dependants, if_pos node, touching]
  · refine ⟨[], ⟨List.Pairwise.nil, fun x edge => ?_⟩, by rw [dependants, if_neg node]; rfl⟩
    refine iff_of_false List.not_mem_nil ?_
    rintro ⟨⟨s, hs, kind⟩, -⟩
    rw [Option.some.inj (hs.symm.trans known)] at kind
    exact node kind

theorem EdgesAt.nodup {edges : List (EntityId × EntityRecord)} (h : w.EdgesAt id edges) :
    (edges.map (·.1)).Nodup :=
  List.pairwise_map.mpr (h.ascending.imp fun before same => by
    rw [same] at before
    exact Nat.lt_irrefl _ before)

/-- There is one list of the edges at an entity. -/
theorem EdgesAt.unique {edges others : List (EntityId × EntityRecord)} (h : w.EdgesAt id edges)
    (h' : w.EdgesAt id others) : edges = others := by
  have irrefl : Std.Irrefl fun a b : EntityId × EntityRecord => a.1.bits.toNat < b.1.bits.toNat :=
    ⟨fun _ => Nat.lt_irrefl _⟩
  have antisymm :
      Std.Antisymm fun a b : EntityId × EntityRecord => a.1.bits.toNat < b.1.bits.toNat :=
    ⟨fun _ _ before after => absurd before (Nat.lt_asymm after)⟩
  exact h.ascending.eq_of_mem_iff h'.ascending fun (x, edge) =>
    (h.mem_iff x edge).trans (h'.mem_iff x edge).symm

/-- Despawning logs the edges in ascending order, and then the entity, which is still there when
its edges have gone. -/
theorem Integrity.logs_despawn (sound : w.Integrity) (h : w.despawn id = .ok (r, u)) :
    ∃ edges, w.EdgesAt id edges ∧ u.log.toList =
      w.log.toList ++ (edges.map (fun (x, edge) => .despawned x edge) ++ [.despawned id r]) := by
  rw [despawn] at h
  cases known : w.get? id with
  | none => simp [known] at h
  | some found =>
    simp only [known, Except.ok.injEq, Prod.mk.injEq] at h
    obtain ⟨rfl, rfl⟩ := h
    obtain ⟨edges, at_id, deps⟩ := exists_edgesAt known
    refine ⟨edges, at_id, ?_⟩
    have logged := log_foldl_retire at_id.nodup fun x s hx => ((at_id.mem_iff x s).mp hx).2.1
    rw [← deps] at logged
    rw [retire_of_some (sound.outlives_dependants known)]
    simp [World.record, logged]

/-- Moving logs the position that was held just before. -/
theorem logs_moveTo {goal : Point} {l : Logged IndexWarning World} (h : w.moveTo id goal = .ok l) :
    ∃ old, w.positionOf? id = some old ∧
      l.value.log.toList = w.log.toList ++ [.moved id old goal] := by
  obtain ⟨r, old, known, located, inside, rfl⟩ := exists_of_moveTo h
  refine ⟨old, ?_, (Steps.single (.moved known located inside)).log⟩
  simp [positionOf?, known, EntityRecord.point?, located]

/-- A call contributes something to the history, and that is what is added to the events that were
taken from the log and those that are left in it. -/
theorem Integrity.exists_logs (sound : w.Integrity) (c : Call) : ∃ events, Logs w c events ∧
    w.released c ++ (w.perform c).log.toList = w.log.toList ++ events := by
  by_cases accepted : w.accepts c = true
  · cases c with
    | spawn ids r =>
      obtain ⟨⟨id, l⟩, h⟩ := exists_of_isOk accepted
      refine ⟨_, .spawned h, ?_⟩
      rw [perform, h]
      exact (steps_spawnWithId (spawnWithId_of_spawn h)).log
    | spawnWithId id r =>
      obtain ⟨l, h⟩ := exists_of_isOk accepted
      refine ⟨_, .spawnedWithId h, ?_⟩
      rw [perform, h]
      exact (steps_spawnWithId h).log
    | despawn id =>
      obtain ⟨⟨r, u⟩, h⟩ := exists_of_isOk accepted
      obtain ⟨edges, at_id, logged⟩ := sound.logs_despawn h
      refine ⟨_, .despawned h at_id, ?_⟩
      rw [perform, h]
      exact logged
    | moveTo id goal =>
      obtain ⟨l, h⟩ := exists_of_isOk accepted
      obtain ⟨old, held, logged⟩ := logs_moveTo h
      refine ⟨_, .moved h held, ?_⟩
      rw [perform, h]
      exact logged
    | step => exact ⟨_, .stepped, (Steps.single (.stepped w _ _)).log⟩
    | drainEvents => exact ⟨_, .drained, rfl⟩
    | trimEvents keep =>
      refine ⟨_, .trimmed, ?_⟩
      rw [perform, log_trimEvents, List.append_nil]
      exact List.take_append_drop _ _
  · rw [Bool.not_eq_true] at accepted
    refine ⟨_, .refused accepted, ?_⟩
    rw [perform_of_refused accepted]
    cases c with
    | drainEvents | trimEvents => cases accepted
    | _ => simp [released, handedOut]

theorem Logs.eq_nil_of_refused (h : Logs w c events) (refused : w.accepts c = false) :
    events = [] := by
  cases h with
  | spawned ok | spawnedWithId ok | moved ok | despawned ok =>
    rw [accepts, ok] at refused
    cases refused
  | stepped => cases refused
  | drained | trimmed | refused => rfl

/-- A call contributes one thing only. -/
theorem Logs.unique (h : Logs w c events) (h' : Logs w c more) : events = more := by
  cases h with
  | refused refused => exact (h'.eq_nil_of_refused refused).symm
  | spawned ok =>
    cases h' with
    | spawned ok' => cases ok.symm.trans ok'; rfl
    | refused refused => exact Logs.eq_nil_of_refused (.spawned ok) refused
  | spawnedWithId ok =>
    cases h' with
    | spawnedWithId => rfl
    | refused refused => exact Logs.eq_nil_of_refused (.spawnedWithId ok) refused
  | despawned ok at_id =>
    cases h' with
    | despawned ok' at_id' => cases ok.symm.trans ok'; rw [at_id.unique at_id']
    | refused refused => exact Logs.eq_nil_of_refused (.despawned ok at_id) refused
  | moved ok held =>
    cases h' with
    | moved _ held' => cases held.symm.trans held'; rfl
    | refused refused => exact Logs.eq_nil_of_refused (.moved ok held) refused
  | stepped =>
    cases h' with
    | stepped => rfl
    | refused refused => cases refused
  | drained | trimmed => cases h' <;> rfl

/-! ### Whole runs -/

/-- A run has one history. -/
theorem Chronicle.unique (h : Chronicle w calls events) (h' : Chronicle w calls more) :
    events = more := by
  induction h generalizing more with
  | nil =>
    cases h' with
    | nil => rfl
  | cons first _ ih =>
    cases h' with
    | cons first' rest' => rw [first.unique first', ih rest']

/-- Over a run, too, what it contributes is added to what was taken from the log and what is left
in it. -/
theorem Reachable.exists_chronicle (h : Reachable range w) (calls : List Call) :
    ∃ events, Chronicle w calls events ∧
      w.allReleased calls ++ (w.run calls).log.toList = w.log.toList ++ events := by
  induction calls generalizing w with
  | nil => exact ⟨[], .nil, by simp [allReleased, World.run]⟩
  | cons c calls ih =>
    obtain ⟨events, first, kept⟩ := h.integrity.exists_logs c
    obtain ⟨more, rest, goes_on⟩ := ih (h.perform c)
    refine ⟨events ++ more, .cons first rest, ?_⟩
    calc w.released c ++ (w.perform c).allReleased calls ++ ((w.perform c).run calls).log.toList
        = w.released c ++ ((w.perform c).log.toList ++ more) := by
          rw [List.append_assoc, goes_on]
      _ = w.log.toList ++ (events ++ more) := by
          rw [← List.append_assoc, kept, List.append_assoc]

theorem Chronicle.append {before : List Call} (h : Chronicle w before events)
    (next : Chronicle (w.run before) calls more) :
    Chronicle w (before ++ calls) (events ++ more) := by
  induction h with
  | nil => exact next
  | cons first _ ih =>
    rw [List.cons_append, List.append_assoc]
    exact .cons first (ih next)

theorem Chronicle.single (h : Logs w c events) : Chronicle w [c] events := by
  simpa using Chronicle.cons h .nil

/-! ### Between drains -/

/-- The events of a run that were recorded since the log was last drained. Without a drain these
are all, and those with which the run began. -/
inductive Undrained (w : World) : List Call → List Event → Prop
  | begun {calls : List Call} {events : List Event} : Chronicle w calls events →
      Call.drainEvents ∉ calls → Undrained w calls (w.log.toList ++ events)
  | drained {before calls : List Call} {events : List Event} :
      Chronicle (w.run (before ++ [.drainEvents])) calls events → Call.drainEvents ∉ calls →
      Undrained w (before ++ [.drainEvents] ++ calls) events

/-- The runs with a clock, which trims the log to a fixed length at every tick. Nobody else trims
it. -/
inductive Clocked (retention : Nat) : List Call → Prop
  | nil : Clocked retention []
  | call {calls : List Call} {c : Call} : Clocked retention calls →
      (∀ keep, c ≠ .trimEvents keep) → Clocked retention (calls ++ [c])
  | tick {calls : List Call} : Clocked retention calls →
      Clocked retention (calls ++ [.step, .trimEvents retention])

/-- A step and a trim are one turn of the clock. -/
theorem run_tick : w.run (calls ++ [.step, .trimEvents retention]) =
    (w.run calls).advance retention := by
  rw [run, List.foldl_append]
  rfl

/-- A log is the end of what was recorded, and all of it while that does not exceed the number of
events to keep. -/
def Ends (retention : Nat) (log events : List Event) : Prop :=
  ∃ front, events = front ++ log ∧ (front = [] ∨ retention ≤ log.length)

theorem ends_refl (log : List Event) : Ends retention log log :=
  ⟨[], rfl, .inl rfl⟩

theorem Ends.append {log : List Event} (h : Ends retention log events) (more : List Event) :
    Ends retention (log ++ more) (events ++ more) := by
  obtain ⟨front, rfl, short⟩ := h
  refine ⟨front, by rw [List.append_assoc], short.imp_right fun enough => ?_⟩
  rw [List.length_append]
  omega

theorem Ends.trim {log : List Event} (h : Ends retention log events) :
    Ends retention (log.drop (log.length - retention)) events ∧
      (log.drop (log.length - retention)).length = min retention events.length := by
  obtain ⟨front, rfl, short⟩ := h
  rw [Ends, List.length_drop, List.length_append]
  by_cases enough : retention ≤ log.length
  · refine ⟨⟨front ++ log.take (log.length - retention), ?_, .inr (by omega)⟩, by omega⟩
    rw [List.append_assoc, List.take_append_drop]
  · obtain rfl := short.resolve_right enough
    refine ⟨⟨[], ?_, .inl rfl⟩, by simp; omega⟩
    rw [show log.length - retention = 0 by omega, List.drop_zero]

/-- A call that is no drain goes on with what was recorded. -/
theorem Undrained.next (h : Undrained w calls events) (keeps : c ≠ .drainEvents)
    (logged : Logs (w.run calls) c more) : Undrained w (calls ++ [c]) (events ++ more) := by
  cases h with
  | begun recorded undrained =>
    rw [List.append_assoc]
    exact .begun (recorded.append (.single logged)) (by simp [undrained, keeps.symm])
  | drained recorded undrained =>
    rw [run, List.foldl_append] at logged
    rw [List.append_assoc]
    exact .drained (recorded.append (.single logged)) (by simp [undrained, keeps.symm])

/-- A call that leaves the log alone adds to it what it contributes. -/
theorem Reachable.exists_added (h : Reachable range w) (drains : c ≠ .drainEvents)
    (trims : ∀ keep, c ≠ .trimEvents keep) :
    ∃ more, Logs w c more ∧ (w.perform c).log.toList = w.log.toList ++ more := by
  obtain ⟨more, logged, added⟩ := h.integrity.exists_logs c
  have nothing : w.released c = [] := by
    cases c with
    | drainEvents => exact absurd rfl drains
    | trimEvents keep => exact absurd rfl (trims keep)
    | _ => rfl
  rw [nothing, List.nil_append] at added
  exact ⟨more, logged, added⟩

theorem run_concat : w.run (calls ++ [c]) = (w.run calls).perform c := by
  rw [run, List.foldl_append]
  rfl

/-- What a turn of the clock leaves of what was recorded since the last drain. -/
theorem Undrained.advance (h : Undrained w calls events) (reachable : Reachable range (w.run calls))
    (ends : Ends retention (w.run calls).log.toList events) : ∃ more,
      Undrained w (calls ++ [.step]) (events ++ more) ∧
      Ends retention ((w.run calls).advance retention).log.toList (events ++ more) ∧
      ((w.run calls).advance retention).log.size = min retention (events ++ more).length := by
  obtain ⟨more, logged, added⟩ := reachable.exists_added (c := .step) nofun nofun
  have trimmed := (ends.append more).trim
  have left : ((w.run calls).advance retention).log.toList =
      ((w.run calls).log.toList ++ more).drop
        (((w.run calls).log.toList ++ more).length - retention) := by
    rw [World.advance, log_trimEvents, ← added]
    rfl
  rw [← left] at trimmed
  exact ⟨more, h.next nofun logged, trimmed⟩

/-- Under a clock the log is always the end of what was recorded since the last drain. -/
theorem Clocked.exists_undrained (clocked : Clocked retention calls) (h : Reachable range w) :
    ∃ events, Undrained w calls events ∧ Ends retention (w.run calls).log.toList events := by
  induction clocked with
  | nil =>
    refine ⟨_, .begun .nil List.not_mem_nil, ?_⟩
    rw [List.append_nil]
    exact ends_refl _
  | @call calls c _ trims ih =>
    obtain ⟨events, recorded, ends⟩ := ih
    by_cases drains : c = .drainEvents
    · subst drains
      refine ⟨[], ?_, by rw [run_concat]; exact ends_refl _⟩
      simpa using @Undrained.drained w calls [] [] .nil List.not_mem_nil
    · obtain ⟨more, logged, added⟩ := (h.run calls).exists_added drains trims
      rw [run_concat, added]
      exact ⟨_, recorded.next drains logged, ends.append more⟩
  | @tick calls _ ih =>
    obtain ⟨events, recorded, ends⟩ := ih
    obtain ⟨more, recorded, ends, -⟩ := recorded.advance (h.run calls) ends
    rw [run_tick]
    refine ⟨events ++ more, ?_, ends⟩
    simpa using recorded.next (c := .trimEvents retention) nofun .trimmed

/-- The log of every run is its history, of which there is one: what was taken from the log and
what is left in it are the events with which the run began and those that its calls contribute, in
order. And under a clock that keeps a fixed number of events, each tick leaves the last ones of
those recorded since the last drain, as many as are to be kept or all there are. -/
theorem log_is_history (started : Started range w₀) (calls : List Call) :
    (∃ events, (∀ other, Chronicle w₀ calls other ↔ other = events) ∧
      w₀.allReleased calls ++ (w₀.run calls).log.toList = w₀.log.toList ++ events) ∧
    ∀ retention, Clocked retention calls → ∃ events, Undrained w₀ (calls ++ [.step]) events ∧
      ((w₀.run calls).advance retention).log.toList <:+ events ∧
      ((w₀.run calls).advance retention).log.size = min retention events.length := by
  have reachable := started.reachable
  refine ⟨?_, fun retention clocked => ?_⟩
  · obtain ⟨events, recorded, kept⟩ := reachable.exists_chronicle calls
    exact ⟨events, fun _ => ⟨fun h => h.unique recorded, fun same => same ▸ recorded⟩, kept⟩
  obtain ⟨events, recorded, ends⟩ := clocked.exists_undrained reachable
  obtain ⟨more, recorded, ⟨front, whole, -⟩, size⟩ := recorded.advance (reachable.run calls) ends
  exact ⟨events ++ more, recorded, ⟨front, whole.symm⟩, size⟩

/-- A station is spawned, the clock ticks, the station is moved, and the clock keeps two events. -/
theorem log_is_history_station :
    let spawned : Call := .spawnWithId (.ofNat 1) ⟨.station, ⟨2⟩, .point ⟨1, 1⟩⟩
    let moved : Call := .moveTo (.ofNat 1) ⟨-1, 1⟩
    let calls : List Call := [spawned, .step, .trimEvents 2, moved]
    ∃ w, create .standard 7 = .ok w ∧
      (∃ events, (∀ other, Chronicle w calls other ↔ other = events) ∧
        w.allReleased calls ++ (w.run calls).log.toList = w.log.toList ++ events) ∧
      ∃ events, Undrained w (calls ++ [.step]) events ∧
        ((w.run calls).advance 2).log.toList <:+ events ∧
        ((w.run calls).advance 2).log.size = min 2 events.length := by
  intro spawned moved calls
  have created : create .standard 7 = .ok _ := rfl
  have clocked : Clocked 2 calls :=
    @Clocked.call 2 [spawned, .step, .trimEvents 2] moved
      (@Clocked.tick 2 [spawned] (@Clocked.call 2 [] spawned .nil nofun)) nofun
  obtain ⟨recorded, ticking⟩ := log_is_history (.created created) calls
  exact ⟨_, created, recorded, ticking 2 clocked⟩

end World

end RailAtlas
