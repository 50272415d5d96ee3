import RailAtlas.Proofs.World.Alike
import RailAtlas.Service.Session

/-!
# The books of a service

A run of a service is any list of actions, of any number of clients, of the processor, of the clock
and of the one who shuts the service down; those that are not possible when their turn comes are
passed over. Its books record the operations that were taken, the operations that were processed
with their outcomes, and the ticks. The state of the service does not depend on the books.

`Balanced` ties the books to the state. It holds when a service starts and every action keeps it,
so it holds after every run.
-/

namespace RailAtlas

open World (Alike Simultaneous)

variable {u w : World} {ids : IdStream} {op : Operation}

/-! ### Operations -/

namespace Operation

def succeeds (op : Operation) (w : World) (ids : IdStream) : Bool :=
  (op.apply w ids).1.isOk

def effect (op : Operation) (w : World) (ids : IdStream) : World :=
  w.accept ((op.apply w ids).1.map (·.2.value))

/-- What an operation does to the registry and the index, its outcome and the identifiers it uses
up follow from the registry and the index. -/
theorem alike_effect (h : Alike u w) (op : Operation) (ids : IdStream) :
    Alike (op.effect u ids) (op.effect w ids) ∧ op.succeeds u ids = op.succeeds w ids ∧
      (op.apply u ids).2 = (op.apply w ids).2 := by
  cases op with
  | spawn r =>
    simp only [effect, succeeds, apply, World.spawn, World.spawnWithId, h.requireSpawnable_eq]
    cases w.requireSpawnable ids.draw.1 r with
    | error cause => exact ⟨h, rfl, trivial⟩
    | ok _ => exact ⟨h.register, rfl, trivial⟩
  | move id goal =>
    simp only [effect, succeeds, apply, World.moveTo, h.requireMovable_eq]
    cases w.requireMovable id goal with
    | error cause => exact ⟨h, rfl, trivial⟩
    | ok found => exact ⟨h.relocate, rfl, trivial⟩
  | despawn id =>
    simp only [effect, succeeds, apply, World.despawn, h.get?_eq]
    cases w.get? id with
    | none => exact ⟨h, rfl, trivial⟩
    | some r =>
      simp only [h.dependants_eq]
      exact ⟨(h.foldl_retire _).retire, rfl, trivial⟩

/-- Operations leave the clock alone. -/
theorem simultaneous_effect (op : Operation) (w : World) (ids : IdStream) :
    Simultaneous (op.effect w ids) w := by
  cases op with
  | spawn r =>
    simp only [effect, apply, World.spawn, World.spawnWithId]
    cases w.requireSpawnable ids.draw.1 r with
    | error cause => exact .refl w
    | ok _ => exact World.simultaneous_register
  | move id goal =>
    simp only [effect, apply, World.moveTo]
    cases w.requireMovable id goal with
    | error cause => exact .refl w
    | ok found => exact World.simultaneous_relocate
  | despawn id =>
    simp only [effect, apply, World.despawn]
    cases w.get? id with
    | none => exact .refl w
    | some r => exact World.simultaneous_retire.trans (World.simultaneous_foldl_retire _)

end Operation

namespace Processor

variable {p : Processor} {elapsed : Duration} {ops : List Operation}

theorem value_apply : (p.apply op elapsed).value =
    { world := op.effect p.world p.ids
      ids := (op.apply p.world p.ids).2
      timer := p.timer.record elapsed
      totals := p.totals.count (op.succeeds p.world p.ids) } := by
  rw [apply, Operation.effect, Operation.succeeds]
  obtain ⟨outcome, left⟩ := op.apply p.world p.ids
  cases outcome <;> rfl

theorem value_applyAll_append : (p.applyAll (ops ++ [op])).value =
    ((p.applyAll ops).value.apply op .zero).value := by
  simp only [applyAll, Logged.value_foldList, List.foldl_append, List.foldl_cons, List.foldl_nil]

end Processor

/-! ### Books -/

/-- What has happened to a service: the operations taken, the operations processed and whether each
was accepted, the operations taken after the processor had finished, and the number of ticks. -/
structure Books where
  taken : List Operation
  processed : List (Operation × Bool)
  late : List Operation
  ticks : Nat

namespace Books

/-- The books of a service to which nothing has happened. -/
def blank : Books :=
  { taken := [], processed := [], late := [], ticks := 0 }

/-- What becomes of a world by the processed operations alone, without a tick. -/
def alone (b : Books) (w : World) (ids : IdStream) : Processor :=
  ((Processor.start w ids).applyAll (b.processed.map Prod.fst)).value

end Books

namespace Session

variable {s s₀ : Session} {b : Books} {settings : ServiceSettings}

/-- The service after an action. Nothing changes if the action is not possible. -/
def next (s : Session) (a : Action) : Session :=
  ((s.perform a).getD (.quiet s)).value

def after (s : Session) (actions : List Action) : Session :=
  (s.performAll actions).value

theorem after_eq (s : Session) (actions : List Action) : s.after actions = actions.foldl next s :=
  Logged.value_foldList _ _ _

/-! ### Single actions -/

theorem submit_of_accepts (h : s.accepts = true) (op : Operation) : (s.submit op).value =
    { s with queue := { s.queue with waiting := s.queue.waiting ++ [op] } } := by
  simp only [accepts, Bool.and_eq_true, bne_iff_ne, Bool.not_eq_true'] at h
  rw [submit, if_neg h.1, OperationQueue.push?, h.2]
  rfl

theorem submit_of_not_accepts (h : s.accepts = false) (op : Operation) :
    (s.submit op).value = s := by
  rw [submit]
  split
  · rfl
  · next alive =>
    have full : s.queue.isFull = true := by simpa [accepts, alive] using h
    rw [OperationQueue.push?, full]
    rfl

theorem next_process_of_idle (h : s.isProcessing = false ∨ s.queue.waiting = [])
    (elapsed : Duration) : s.next (.process elapsed) = s := by
  rw [next, perform, process]
  obtain idle | empty := h
  · rw [idle]
    rfl
  · rw [empty]
    cases s.isProcessing <;> rfl

theorem next_process_of_cons {rest : List Operation} (processing : s.isProcessing = true)
    (waiting : s.queue.waiting = op :: rest) (elapsed : Duration) :
    s.next (.process elapsed) =
      { s with
        queue := { s.queue with waiting := rest }
        processor := (s.processor.apply op elapsed).value } := by
  rw [next, perform, process, processing, waiting]
  rfl

theorem next_tick (s : Session) (elapsed : Duration) :
    s.next (.tick elapsed) = if s.ticking then s.tick elapsed else s := by
  rw [next, perform]
  cases s.ticking <;> rfl

/-! ### Books of a run -/

def book (s : Session) (b : Books) : Action → Books
  | .submit op =>
    if s.accepts then
      { b with
        taken := b.taken ++ [op]
        late := if s.isProcessing then b.late else b.late ++ [op] }
    else b
  | .process _ =>
    if s.isProcessing then
      { b with
        processed := b.processed ++ (s.queue.waiting.take 1).map fun op =>
          (op, op.succeeds s.world s.processor.ids) }
    else b
  | .tick _ => if s.ticking then { b with ticks := b.ticks + 1 } else b
  | .stopClock | .requestStop | .noticeStop | .finish | .release => b

/-- The books after some actions, on top of earlier books. -/
def booksFrom (b : Books) (s : Session) : List Action → Books
  | [] => b
  | a :: rest => booksFrom (s.book b a) (s.next a) rest

def books (s : Session) (actions : List Action) : Books :=
  s.booksFrom .blank actions

/-- The books account for the state of a service that started on a world. -/
structure Balanced (w : World) (ids : IdStream) (capacity : Nat) (b : Books) (s : Session) :
    Prop where
  capacity_eq : s.queue.capacity = capacity
  order : b.taken = b.processed.map Prod.fst ++ s.queue.waiting
  room : s.queue.waiting.length ≤ capacity
  late : b.late = if s.isProcessing then [] else s.queue.waiting
  totals : s.processor.totals = ⟨b.processed.countP (·.2), b.processed.countP (!·.2)⟩
  alike : Alike s.world (b.alone w ids).world
  ids_eq : s.processor.ids = (b.alone w ids).ids
  clock : Simultaneous s.world (Nat.repeat World.step b.ticks w)

namespace Balanced

variable {capacity : Nat}

theorem start (h : Session.start w ids settings = .ok s₀) :
    Balanced w ids settings.queueCapacity.toNat .blank s₀ := by
  rw [Session.start, OperationQueue.create] at h
  split at h
  · cases h
  · split at h
    · cases h
    · cases h
      exact ⟨rfl, rfl, Nat.zero_le _, rfl, rfl, .refl w, rfl, .refl w⟩

theorem accepts_eq_false_iff (h : Balanced w ids capacity b s) :
    s.accepts = false ↔ s.phase = .gone ∨ s.queue.waiting.length = capacity := by
  have room := h.room
  rw [accepts, OperationQueue.isFull, h.capacity_eq]
  cases s.phase <;> simp <;> omega

theorem submit (h : Balanced w ids capacity b s) (op : Operation) :
    Balanced w ids capacity (s.book b (.submit op)) (s.next (.submit op)) := by
  change Balanced w ids capacity (if s.accepts then _ else b) (s.submit op).value
  cases taken : s.accepts with
  | false =>
    rw [submit_of_not_accepts taken]
    exact h
  | true =>
    have open_place : s.queue.waiting.length ≠ capacity := fun full => by
      simp [h.accepts_eq_false_iff.mpr (.inr full)] at taken
    rw [submit_of_accepts taken]
    refine ⟨h.capacity_eq, ?_, ?_, ?_, h.totals, h.alike, h.ids_eq, h.clock⟩
    · simp only [if_true, h.order, List.append_assoc]
    · have room := h.room
      simp only [List.length_append, List.length_singleton]
      omega
    · have late := h.late
      have same : isProcessing { s with queue := { s.queue with
        waiting := s.queue.waiting ++ [op] } } = s.isProcessing := rfl
      rw [same]
      cases processing : s.isProcessing <;> simp [processing] at late ⊢ <;> rw [late]

/-- The operation at the front goes from the queue into the books. -/
theorem processed {rest : List Operation} (h : Balanced w ids capacity b s)
    (processing : s.isProcessing = true) (waiting : s.queue.waiting = op :: rest)
    (elapsed : Duration) :
    Balanced w ids capacity
      { b with
        processed := b.processed ++ [(op, op.succeeds s.world s.processor.ids)] }
      { s with
        queue := { s.queue with waiting := rest }
        processor := (s.processor.apply op elapsed).value } := by
  have order := h.order
  have room := h.room
  rw [waiting] at order room
  obtain ⟨same_world, -, same_ids⟩ := Operation.alike_effect h.alike op s.processor.ids
  -- the world without ticks makes the same step
  have alone : ∀ flag, ({ b with processed := b.processed ++ [(op, flag)] } : Books).alone w ids =
      ((b.alone w ids).apply op .zero).value := fun flag => by
    simp only [Books.alone, List.map_append, List.map_cons, List.map_nil,
      Processor.value_applyAll_append]
  refine ⟨h.capacity_eq, ?order, Nat.le_of_succ_le room, ?late, ?totals, ?alike, ?ids, ?clock⟩
  case order => simp [order]
  case late =>
    have late := h.late
    rw [processing] at late
    exact late.trans (if_pos processing).symm
  case totals =>
    rw [Processor.value_apply, h.totals]
    change Tally.count _ (op.succeeds s.world s.processor.ids) = _
    cases op.succeeds s.world s.processor.ids <;> simp [Tally.count]
  case alike =>
    rw [alone, Processor.value_apply, Processor.value_apply, ← h.ids_eq]
    exact same_world
  case ids =>
    rw [alone, Processor.value_apply, Processor.value_apply, ← h.ids_eq]
    exact same_ids
  case clock =>
    rw [Processor.value_apply]
    exact (Operation.simultaneous_effect op s.world s.processor.ids).trans h.clock

theorem process (h : Balanced w ids capacity b s) (elapsed : Duration) :
    Balanced w ids capacity (s.book b (.process elapsed)) (s.next (.process elapsed)) := by
  cases processing : s.isProcessing with
  | false =>
    rw [next_process_of_idle (.inl processing), book, processing]
    exact h
  | true =>
    cases waiting : s.queue.waiting with
    | nil =>
      rw [next_process_of_idle (.inr waiting), book, processing, waiting]
      simpa using h
    | cons op rest =>
      rw [next_process_of_cons processing waiting, book, processing, waiting]
      exact h.processed processing waiting elapsed

theorem tick (h : Balanced w ids capacity b s) (elapsed : Duration) :
    Balanced w ids capacity (s.book b (.tick elapsed)) (s.next (.tick elapsed)) := by
  rw [next_tick, book]
  cases s.ticking with
  | false => exact h
  | true =>
    refine ⟨h.capacity_eq, h.order, h.room, h.late, h.totals, ?_, h.ids_eq, ?_⟩
    · exact ⟨h.alike.registry, h.alike.index⟩
    · exact ⟨congrArg (· + 1) h.clock.tick, congrArg splitMix h.clock.seed⟩

/-- The steps of a shutdown do nothing but lead the processor through its phases. The queue is empty
when it finishes, so whatever waits from then on has come late. -/
theorem shutdown (h : Balanced w ids capacity b s) {phase : ProcessorPhase}
    {ticking stopRequested : Bool}
    (moved : phase = s.phase ∨ s.phase = .running ∧ phase = .draining ∨
      s.phase = .draining ∧ s.queue.waiting = [] ∧ phase = .finished ∨
      s.phase = .finished ∧ phase = .gone) :
    Balanced w ids capacity b { s with phase, ticking, stopRequested } := by
  refine ⟨h.capacity_eq, h.order, h.room, ?_, h.totals, h.alike, h.ids_eq, h.clock⟩
  rw [h.late]
  obtain rfl | ⟨was, rfl⟩ | ⟨was, empty, rfl⟩ | ⟨was, rfl⟩ := moved
  · rfl
  · simp [isProcessing, was]
  · simp [isProcessing, was, empty]
  · simp [isProcessing, was]

/-- Every action keeps the books balanced. -/
theorem next (h : Balanced w ids capacity b s) (a : Action) :
    Balanced w ids capacity (s.book b a) (s.next a) := by
  cases a with
  | submit op => exact h.submit op
  | process elapsed => exact h.process elapsed
  | tick elapsed => exact h.tick elapsed
  | stopClock =>
    rw [book, Session.next, perform]
    split
    · exact h.shutdown (.inl rfl)
    · exact h
  | requestStop =>
    rw [book, Session.next, perform]
    split
    · exact h.shutdown (.inl rfl)
    · exact h
  | noticeStop =>
    rw [book, Session.next, perform]
    split
    · next running => exact h.shutdown (.inr (.inl ⟨running.1, rfl⟩))
    · exact h
  | finish =>
    rw [book, Session.next, perform]
    split
    · next drained => exact h.shutdown (.inr (.inr (.inl ⟨drained.1, drained.2, rfl⟩)))
    · exact h
  | release =>
    rw [book, Session.next, perform]
    split
    · next finished => exact h.shutdown (.inr (.inr (.inr ⟨finished, rfl⟩)))
    · exact h

theorem run (h : Balanced w ids capacity b s) (actions : List Action) :
    Balanced w ids capacity (s.booksFrom b actions) (s.after actions) := by
  rw [after_eq]
  induction actions generalizing b s with
  | nil => exact h
  | cons a rest ih => exact ih (h.next a)

/-- Every processed operation is counted once. -/
theorem total_eq (h : Balanced w ids capacity b s) :
    s.processor.totals.total = b.processed.length := by
  rw [h.totals, Tally.total, List.length_eq_countP_add_countP (fun entry => entry.2)]
  simp

end Balanced

/-- The books of every run are balanced. -/
theorem balanced_books (h : start w ids settings = .ok s₀) (actions : List Action) :
    Balanced w ids settings.queueCapacity.toNat (s₀.books actions) (s₀.after actions) :=
  (Balanced.start h).run actions

/-! ### Runs -/

/-- When the queue is gone, exactly the operations that were taken after the processor had finished
are missing from its totals. -/
theorem missing_iff_late (started : start w ids settings = .ok s₀) (actions : List Action)
    (ended : (s₀.after actions).phase = .gone) :
    let s := s₀.after actions
    let b := s₀.books actions
    b.taken = b.processed.map Prod.fst ++ b.late ∧
    s.processor.totals.total + b.late.length = b.taken.length ∧
    (s.processor.totals.total = b.taken.length ↔ b.late = []) := by
  intro s b
  have h : Balanced w ids settings.queueCapacity.toNat b s := balanced_books started actions
  have late : b.late = s.queue.waiting := by
    rw [h.late, isProcessing, ended]
    rfl
  have order : b.taken = b.processed.map Prod.fst ++ b.late := by rw [late, h.order]
  have lengths : s.processor.totals.total + b.late.length = b.taken.length := by
    rw [h.total_eq, order, List.length_append, List.length_map]
  refine ⟨order, lengths, ?_⟩
  rw [← lengths, ← List.length_eq_zero_iff]
  omega

/-- A shutdown during which nobody submits. -/
theorem missing_iff_late_orderly :
    let actions : List Action := .submit (.despawn (.ofNat 1)) :: shutdown 1
    ∃ w s₀, World.create .standard 7 = .ok w ∧ start w (.start 0) .standard = .ok s₀ ∧
      (s₀.after actions).phase = .gone ∧
      (s₀.after actions).processor.totals.total = (s₀.books actions).taken.length := by
  intro actions
  have created : World.create .standard 7 = .ok _ := rfl
  have started : ∀ w, start w (.start 0) .standard = .ok _ := fun w => rfl
  refine ⟨_, _, created, started _, rfl, ?_⟩
  obtain ⟨-, -, missing⟩ := missing_iff_late (started _) actions rfl
  exact missing.mpr rfl

/-- An operation submitted after the processor has finished and before the queue is gone is taken
and never processed. -/
theorem taken_and_lost :
    let actions : List Action :=
      [.stopClock, .requestStop, .noticeStop, .finish, .submit (.despawn (.ofNat 1)), .release]
    ∃ w s₀, World.create .standard 7 = .ok w ∧ start w (.start 0) .standard = .ok s₀ ∧
      (s₀.after actions).phase = .gone ∧ (s₀.books actions).taken = [.despawn (.ofNat 1)] ∧
      (s₀.after actions).processor.totals.total = 0 := by
  intro actions
  have created : World.create .standard 7 = .ok _ := rfl
  have started : ∀ w, start w (.start 0) .standard = .ok _ := fun w => rfl
  exact ⟨_, _, created, started _, rfl, rfl, rfl⟩

end Session

end RailAtlas
