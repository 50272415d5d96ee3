import RailAtlas.Proofs.World.Step

/-!
# Operations in place

An operation of a world gives a new world or an error, so nothing can be left half done. A program
that holds one world has to change it bit by bit instead, and what it has changed stays changed if
it gives up half way. `InPlace` is the type of such programs. The three operations that may be
refused are written out as programs here, each of which reads and writes in its proper order.
Despawning is the delicate one: it calls itself for every edge at a node, in the middle of its own
changes, and gives up as soon as one of these calls fails.

In every reachable world the programs end, with calls nested two deep at most. They come to what
the operations say, they fail for the reasons of `SpawnFault`, `MoveFault` and `DespawnFault` and
for no other ones, and then they leave the world as it was.
-/

namespace RailAtlas

/-- A program that changes a world as it goes. What it has changed by the time it fails stays
changed, and it need not end. -/
abbrev InPlace (α : Type) := ExceptT WorldError (StateT World Option) α

namespace InPlace

variable {α β : Type} {w u : World}

def endless : InPlace α :=
  ExceptT.mk fun _ => none

/-- What a program gives, and the world it leaves behind. -/
def on (program : InPlace α) (w : World) : Option (Except WorldError α × World) :=
  (ExceptT.run program).run w

@[simp] theorem on_pure (a : α) : (pure a : InPlace α).on w = some (.ok a, w) := rfl

@[simp] theorem on_throw (cause : WorldError) :
    (throw cause : InPlace α).on w = some (.error cause, w) := rfl

@[simp] theorem on_get_bind (f : World → InPlace α) : (get >>= f).on w = (f w).on w := rfl

@[simp] theorem on_modify (g : World → World) :
    (modify g : InPlace PUnit).on w = some (.ok (), g w) := rfl

@[simp] theorem on_modify_bind (g : World → World) (f : PUnit → InPlace α) :
    (modify g >>= f).on w = (f ()).on (g w) := rfl

@[simp] theorem on_refused_bind (cause : WorldError) (f : β → InPlace α) :
    (liftM (Except.error cause : Except WorldError β) >>= f).on w = some (.error cause, w) := rfl

@[simp] theorem on_granted_bind (b : β) (f : β → InPlace α) :
    (liftM (Except.ok b : Except WorldError β) >>= f).on w = (f b).on w := rfl

theorem on_bind_of_ok {program : InPlace β} {b : β} (f : β → InPlace α)
    (h : program.on w = some (.ok b, u)) : (program >>= f).on w = (f b).on u := by
  change program w = some (.ok b, u) at h
  change Option.bind (program w) _ = _
  rw [h]
  rfl

end InPlace

namespace World

variable {w u v w₀ : World} {id : EntityId} {r : EntityRecord} {goal : Point} {cause : WorldError}
variable {range : ScaleRange} {depth : Nat}

/-! ### The programs -/

/-- Put an entity into the index, if it is registered. -/
def enter (w : World) (id : EntityId) : World :=
  match w.placement? id with
  | none => w
  | some p => { w with index := (w.index.add p).value }

/-- Take an entity out of the index, if it is registered. -/
def withdraw (w : World) (id : EntityId) : World :=
  match w.placement? id with
  | none => w
  | some p => { w with index := w.index.remove p }

/-- Spawn an entity: check, register, index, log. -/
def spawnInPlace (id : EntityId) (r : EntityRecord) : InPlace Unit := do
  let w ← get
  w.requireSpawnable id r
  modify fun w => { w with registry := w.registry.insert id r }
  modify (·.enter id)
  modify (·.record (.spawned id r))

/-- Move an entity: check, write the new position, index it and what depends on it anew, log. -/
def moveInPlace (id : EntityId) (goal : Point) : InPlace Unit := do
  let w ← get
  let (r, old) ← w.requireMovable id goal
  modify (·.repositioned id r goal)
  let w ← get
  for x in id :: w.dependants id r do
    modify fun w => (w.reindex x).value
  modify (·.record (.moved id old goal))

/-- Requires a registered entity. Gives its record. -/
def requireKnown (w : World) (id : EntityId) : Except WorldError EntityRecord :=
  match w.get? id with
  | none => .error (.unknownEntity id)
  | some r => .ok r

/-- Despawn an entity: check, despawn what depends on it, take it out of the index and the
registry, log. A call that is nested more deeply than allowed does not end. -/
def despawnInPlace : Nat → EntityId → InPlace EntityRecord
  | 0, _ => .endless
  | depth + 1, id => do
    let w ← get
    let r ← w.requireKnown id
    for x in w.dependants id r do
      let _ ← despawnInPlace depth x
    modify (·.withdraw id)
    modify fun w => { w with registry := w.registry.erase id }
    modify (·.record (.despawned id r))
    return r

/-- The loop in a despawn: despawn some entities, one after the other. -/
def despawnEachInPlace (depth : Nat) (ids : List EntityId) : InPlace PUnit :=
  forIn ids PUnit.unit fun x _ => do
    let _ ← despawnInPlace depth x
    return .yield PUnit.unit

/-! ### Reasons to refuse -/

inductive NodeFault (w : World) (id : EntityId) : WorldError → Prop
  | unknown (absent : w.get? id = none) : NodeFault w id (.unknownEntity id)
  | other {r : EntityRecord} (known : w.get? id = some r) (kind : r.kind ≠ .railNode) :
      NodeFault w id (.notANode id)

/-- What is wrong with a new entity. A later reason counts only if no earlier one does, and the
target of an edge is looked at only if its origin is a node. -/
inductive SpawnFault (w : World) (id : EntityId) (r : EntityRecord) : WorldError → Prop
  | duplicate {old : EntityRecord} (known : w.get? id = some old) :
      SpawnFault w id r (.duplicateEntity id)
  | shape (fresh : w.get? id = none) (misfit : r.isWellFormed = false) :
      SpawnFault w id r (.shapeMismatch r.kind)
  | outside {p : Point} (fresh : w.get? id = none) (formed : r.isWellFormed = true)
      (located : r.shape = .point p) (out : w.containsPoint p = false) :
      SpawnFault w id r (.outOfWorld p)
  | origin {origin target : EntityId} {cause : WorldError} (fresh : w.get? id = none)
      (formed : r.isWellFormed = true) (directed : r.shape = .edge origin target)
      (fault : NodeFault w origin cause) : SpawnFault w id r cause
  | target {origin target : EntityId} {cause : WorldError} (fresh : w.get? id = none)
      (formed : r.isWellFormed = true) (directed : r.shape = .edge origin target)
      (first : w.IsNode origin) (fault : NodeFault w target cause) : SpawnFault w id r cause

/-- What is wrong with a move, an earlier reason before a later one. -/
inductive MoveFault (w : World) (id : EntityId) (goal : Point) : WorldError → Prop
  | unknown (absent : w.get? id = none) : MoveFault w id goal (.unknownEntity id)
  | immovable {r : EntityRecord} (known : w.get? id = some r) (fixed : ∀ p, r.shape ≠ .point p) :
      MoveFault w id goal (.immovable id)
  | outside {r : EntityRecord} {old : Point} (known : w.get? id = some r)
      (located : r.shape = .point old) (out : w.containsPoint goal = false) :
      MoveFault w id goal (.outOfWorld goal)

inductive DespawnFault (w : World) (id : EntityId) : WorldError → Prop
  | unknown (absent : w.get? id = none) : DespawnFault w id (.unknownEntity id)

theorem NodeFault.requireNode (h : NodeFault w id cause) : w.requireNode id = .error cause := by
  cases h with
  | unknown absent => rw [World.requireNode, absent]
  | other known kind => simp [World.requireNode, known, kind]

theorem requireNode_eq_error_iff : w.requireNode id = .error cause ↔ NodeFault w id cause := by
  refine ⟨fun h => ?_, NodeFault.requireNode⟩
  rw [requireNode] at h
  cases known : w.get? id with
  | none =>
    simp only [known, Except.error.injEq] at h
    exact h ▸ .unknown known
  | some r =>
    simp only [known] at h
    split at h
    · cases h
    · next other => exact Except.error.inj h ▸ .other known other

theorem SpawnFault.requireSpawnable (h : SpawnFault w id r cause) :
    w.requireSpawnable id r = .error cause := by
  rw [World.requireSpawnable, registry_contains]
  cases h with
  | duplicate known => simp [known]
  | shape fresh misfit => simp [fresh, misfit]
  | outside fresh formed located out => simp [fresh, formed, located, requirePlace, out]
  | origin fresh formed directed fault =>
    simp [fresh, formed, directed, requirePlace, fault.requireNode, bind, Except.bind]
  | target fresh formed directed first fault =>
    simp [fresh, formed, directed, requirePlace, requireNode_eq_ok_iff.mpr first,
      fault.requireNode, bind, Except.bind]

theorem requireSpawnable_eq_error_iff :
    w.requireSpawnable id r = .error cause ↔ SpawnFault w id r cause := by
  refine ⟨fun h => ?_, SpawnFault.requireSpawnable⟩
  rw [requireSpawnable, registry_contains] at h
  cases known : w.get? id with
  | some old =>
    simp only [known, Option.isSome_some, if_true, Except.error.injEq] at h
    exact h ▸ .duplicate known
  | none =>
    cases formed : r.isWellFormed with
    | false =>
      simp only [known, formed, Option.isSome_none, Bool.not_false, if_true,
        Bool.false_eq_true, if_false, Except.error.injEq] at h
      exact h ▸ .shape known formed
    | true =>
      simp only [known, formed, Option.isSome_none, Bool.not_true, Bool.false_eq_true,
        if_false] at h
      cases hs : r.shape with
      | placeless => simp [hs, requirePlace] at h
      | point p =>
        simp only [hs, requirePlace] at h
        split at h
        · cases h
        · next out => exact Except.error.inj h ▸ .outside known formed hs (Bool.not_eq_true _ ▸ out)
      | edge origin target =>
        simp only [hs, requirePlace, bind, Except.bind] at h
        cases first : w.requireNode origin with
        | error earlier =>
          simp only [first, Except.error.injEq] at h
          exact h ▸ .origin known formed hs (requireNode_eq_error_iff.mp first)
        | ok _ =>
          simp only [first] at h
          exact .target known formed hs (requireNode_eq_ok_iff.mp first)
            (requireNode_eq_error_iff.mp h)

theorem MoveFault.requireMovable (h : MoveFault w id goal cause) :
    w.requireMovable id goal = .error cause := by
  rw [World.requireMovable]
  cases h with
  | unknown absent => rw [absent]
  | @immovable r known fixed =>
    cases hs : r.shape with
    | point p => exact absurd hs (fixed p)
    | edge origin target => simp [known, hs]
    | placeless => simp [known, hs]
  | outside known located out => simp [known, located, out]

theorem requireMovable_eq_error_iff :
    w.requireMovable id goal = .error cause ↔ MoveFault w id goal cause := by
  refine ⟨fun h => ?_, MoveFault.requireMovable⟩
  rw [requireMovable] at h
  cases known : w.get? id with
  | none =>
    simp only [known, Except.error.injEq] at h
    exact h ▸ .unknown known
  | some r =>
    cases hs : r.shape with
    | point old =>
      simp only [known, hs] at h
      split at h
      · cases h
      · next out => exact Except.error.inj h ▸ .outside known hs (Bool.not_eq_true _ ▸ out)
    | edge origin target =>
      simp only [known, hs, Except.error.injEq] at h
      exact h ▸ .immovable known fun p located => by simp [hs] at located
    | placeless =>
      simp only [known, hs, Except.error.injEq] at h
      exact h ▸ .immovable known fun p located => by simp [hs] at located

/-! ### What the programs come to -/

/-- The outcome of an operation as a program in place gives it. -/
def settle {α : Type} (w : World) : Except WorldError (α × World) → Except WorldError α × World
  | .ok (a, u) => (.ok a, u)
  | .error cause => (.error cause, w)

theorem enter_of_some (known : w.get? id = some r) :
    w.enter id = { w with index := (w.index.add (w.placementOf id r)).value } := by
  simp [enter, placement?, known]

theorem withdraw_of_some (known : w.get? id = some r) :
    w.withdraw id = { w with index := w.index.remove (w.placementOf id r) } := by
  simp [withdraw, placement?, known]

theorem on_spawnInPlace : (spawnInPlace id r).on w =
    some (w.settle ((w.spawnWithId id r).map fun next => ((), next.value))) := by
  rw [spawnInPlace, InPlace.on_get_bind, spawnWithId]
  cases checked : w.requireSpawnable id r with
  | error cause =>
    rw [InPlace.on_refused_bind]
    rfl
  | ok _ =>
    have registered : ({ w with registry := w.registry.insert id r } : World).get? id = some r := by
      simp [get?]
    rw [InPlace.on_granted_bind, InPlace.on_modify_bind, InPlace.on_modify_bind,
      InPlace.on_modify, enter_of_some registered]
    rfl

/-- Changes made one after the other, each by a list element. -/
theorem on_forIn_modify (change : EntityId → World → World) (ids : List EntityId) (w : World) :
    (forIn ids PUnit.unit fun x _ => do
      modify (change x)
      pure (ForInStep.yield PUnit.unit) : InPlace PUnit).on w =
    some (.ok (), ids.foldl (fun w x => change x w) w) := by
  induction ids generalizing w with
  | nil => rfl
  | cons x ids ih =>
    rw [List.forIn_cons, bind_assoc, InPlace.on_modify_bind, pure_bind, ih]
    rfl

theorem on_moveInPlace : (moveInPlace id goal).on w =
    some (w.settle ((w.moveTo id goal).map fun next => ((), next.value))) := by
  rw [moveInPlace, InPlace.on_get_bind, moveTo]
  cases checked : w.requireMovable id goal with
  | error cause =>
    rw [InPlace.on_refused_bind]
    rfl
  | ok found =>
    obtain ⟨r, old⟩ := found
    simp only [InPlace.on_granted_bind, InPlace.on_modify_bind, InPlace.on_get_bind]
    rw [InPlace.on_bind_of_ok _ (on_forIn_modify (fun x w => (w.reindex x).value) _ _),
      InPlace.on_modify, ← Logged.value_foldList]
    rfl

/-! ### The cascade -/

theorem on_despawnInPlace_of_none (absent : w.get? id = none) :
    (despawnInPlace (depth + 1) id).on w = some (.error (.unknownEntity id), w) := by
  rw [despawnInPlace, InPlace.on_get_bind, requireKnown, absent]
  rfl

/-- Once its dependants are gone, an entity that is still there is retired. -/
theorem on_despawnInPlace_of_some (known : w.get? id = some r)
    (cascade : (despawnEachInPlace depth (w.dependants id r)).on w = some (.ok (), u))
    (still : u.get? id = some r) :
    (despawnInPlace (depth + 1) id).on w = some (.ok r, u.retire id) := by
  rw [despawnInPlace, InPlace.on_get_bind, requireKnown, known, InPlace.on_granted_bind]
  refine (InPlace.on_bind_of_ok _ cascade).trans ?_
  rw [InPlace.on_modify_bind, InPlace.on_modify_bind, InPlace.on_modify_bind,
    withdraw_of_some still, retire_of_some still]
  rfl

/-- An entity that is no rail node goes alone. -/
theorem on_despawnInPlace_of_ne (known : w.get? id = some r) (other : r.kind ≠ .railNode) :
    (despawnInPlace (depth + 1) id).on w = some (.ok r, w.retire id) := by
  refine on_despawnInPlace_of_some known ?_ known
  rw [dependants, if_neg other]
  rfl

/-- Entities that are no rail nodes go one after the other, if none is named twice. -/
theorem on_despawnEachInPlace {ids : List EntityId} (distinct : ids.Nodup)
    (others : ∀ x ∈ ids, ∃ r, w.get? x = some r ∧ r.kind ≠ .railNode) :
    (despawnEachInPlace (depth + 1) ids).on w = some (.ok (), ids.foldl retire w) := by
  induction ids generalizing w with
  | nil => rfl
  | cons x ids ih =>
    obtain ⟨r, known, other⟩ := others x List.mem_cons_self
    obtain ⟨apart, distinct⟩ := List.nodup_cons.mp distinct
    rw [despawnEachInPlace, List.forIn_cons, bind_assoc,
      InPlace.on_bind_of_ok _ (on_despawnInPlace_of_ne known other), pure_bind]
    refine ih distinct fun y hy => ?_
    obtain ⟨s, hs, kind⟩ := others y (List.mem_cons_of_mem x hy)
    refine ⟨s, ?_, kind⟩
    rw [get?_retire, if_neg, hs]
    rintro rfl
    exact apart hy

theorem nodup_dependants : (w.dependants id r).Nodup := by
  rw [dependants]
  split
  · exact nodup_filter_entities
  · exact List.nodup_nil

/-- The cascade never fails: the dependants of an entity are distinct edges, so each of them is
still there when its turn comes, and has no dependants of its own. -/
theorem Integrity.on_despawnInPlace (sound : w.Integrity) :
    (despawnInPlace (depth + 2) id).on w = some (w.settle (w.despawn id)) := by
  cases known : w.get? id with
  | none => rw [on_despawnInPlace_of_none known, despawn, known, settle]
  | some r =>
    have edges : ∀ x ∈ w.dependants id r, ∃ edge, w.get? x = some edge ∧ edge.kind ≠ .railNode := by
      intro x hx
      obtain ⟨edge, hedge, touches⟩ := (sound.mem_dependants known).mp hx
      refine ⟨edge, hedge, ?_⟩
      rw [kind_of_touches (sound hedge).1 touches]
      decide
    have cascade := @on_despawnEachInPlace w depth _ nodup_dependants edges
    rw [on_despawnInPlace_of_some known cascade (sound.outlives_dependants known), despawn, known,
      settle]

/-! ### Accepted or refused -/

/-- A program in place comes to a given outcome of an operation, fails exactly for some given
reasons, and leaves no trace when it fails. -/
structure Decides {α : Type} (program : InPlace α) (w : World)
    (outcome : Except WorldError (α × World)) (fault : WorldError → Prop) : Prop where
  agrees : program.on w = some (w.settle outcome)
  fails_iff (cause : WorldError) : (∃ u, program.on w = some (.error cause, u)) ↔ fault cause
  succeeds_iff : (∃ a u, program.on w = some (.ok a, u)) ↔ ∀ cause, ¬ fault cause
  kept {cause : WorldError} {u : World} : program.on w = some (.error cause, u) → u = w

theorem Decides.of_agrees {α : Type} {program : InPlace α}
    {outcome : Except WorldError (α × World)} {fault : WorldError → Prop}
    (agrees : program.on w = some (w.settle outcome))
    (faults : ∀ cause, outcome = .error cause ↔ fault cause) :
    Decides program w outcome fault := by
  cases outcome with
  | error cause =>
    refine ⟨agrees, fun other => ?_, ?_, fun ended => ?_⟩
    · rw [← faults, agrees]
      simp [settle]
    · rw [agrees]
      simpa [settle] using ⟨cause, (faults cause).mp rfl⟩
    · rw [agrees] at ended
      exact (Prod.mk.inj (Option.some.inj ended)).2.symm
  | ok result =>
    have sound : ∀ cause, ¬ fault cause := fun cause h => by
      have failed := (faults cause).mpr h
      cases failed
    refine ⟨agrees, fun other => ?_, ?_, fun ended => ?_⟩
    · rw [agrees]
      simpa [settle] using sound other
    · rw [agrees]
      simpa [settle] using sound
    · rw [agrees] at ended
      simp [settle] at ended

/-- In every world of every run, each operation is accepted or refused as its preconditions say,
also when it changes the world in place; and a refused one leaves no trace. -/
theorem operations_decided (started : Started range w₀) (calls : List Call) :
    let w := w₀.run calls
    (∀ id r, Decides (spawnInPlace id r) w
      ((w.spawnWithId id r).map fun next => ((), next.value)) (SpawnFault w id r)) ∧
    (∀ id goal, Decides (moveInPlace id goal) w
      ((w.moveTo id goal).map fun next => ((), next.value)) (MoveFault w id goal)) ∧
    (∀ id depth, Decides (despawnInPlace (depth + 2) id) w (w.despawn id) (DespawnFault w id)) := by
  intro w
  have sound : w.Integrity := (started.reachable.run calls).integrity
  refine ⟨fun id r => .of_agrees on_spawnInPlace fun cause => ?_,
    fun id goal => .of_agrees on_moveInPlace fun cause => ?_,
    fun id depth => .of_agrees sound.on_despawnInPlace fun cause => ?_⟩
  · rw [← requireSpawnable_eq_error_iff, spawnWithId]
    cases w.requireSpawnable id r <;> simp [bind, Except.bind, pure, Except.pure, Except.map]
  · rw [← requireMovable_eq_error_iff, moveTo]
    cases w.requireMovable id goal <;> simp [bind, Except.bind, pure, Except.pure, Except.map]
  · rw [despawn]
    cases known : w.get? id with
    | none =>
      simp only [Except.error.injEq]
      constructor
      · rintro rfl
        exact .unknown known
      · rintro ⟨-⟩
        rfl
    | some r =>
      simp only [reduceCtorEq, false_iff]
      rintro ⟨absent⟩
      simp [known] at absent

/-- A node with an edge is despawned in place, though the edge has to go first. -/
theorem operations_decided_cascade :
    let node (x : Float) : EntityRecord := ⟨.railNode, ⟨2⟩, .point ⟨x, 1⟩⟩
    let edge : EntityRecord := ⟨.railEdge, ⟨2⟩, .edge (.ofNat 1) (.ofNat 2)⟩
    ∃ w, create .standard 7 = .ok w ∧ ∃ r u,
      (despawnInPlace 2 (.ofNat 1)).on (w.run [.spawnWithId (.ofNat 1) (node 1),
        .spawnWithId (.ofNat 2) (node 2), .spawnWithId (.ofNat 3) edge]) = some (.ok r, u) := by
  intro node edge
  have created : create .standard 7 = .ok _ := rfl
  refine ⟨_, created, ?_⟩
  have decided := (operations_decided (.created created) [.spawnWithId (.ofNat 1) (node 1),
    .spawnWithId (.ofNat 2) (node 2), .spawnWithId (.ofNat 3) edge]).2.2 (.ofNat 1) 0
  refine decided.succeeds_iff.mpr ?_
  rintro _ ⟨absent⟩
  revert absent
  decide +kernel

end World

end RailAtlas
