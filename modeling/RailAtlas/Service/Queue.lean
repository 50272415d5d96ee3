import RailAtlas.Service.Stopwatch
import RailAtlas.World.Basic

/-!
# Operations and their queue

Clients ask for changes of the world by operations, which wait in a bounded queue, first in first
out. An operation that finds the queue full, or the processor gone, is dropped. The processor takes
one operation at a time from the front, applies it, and counts whether it was accepted.
-/

namespace RailAtlas

/-- A change of the world that a client asks for. -/
inductive Operation where
  | spawn (record : EntityRecord)
  | move (id : EntityId) (goal : Point)
  | despawn (id : EntityId)
deriving DecidableEq

namespace Operation

def name : Operation → String
  | spawn _ => "spawn"
  | move _ _ => "move"
  | despawn _ => "despawn"

/-- Apply an operation. Gives the entity affected, and the identifiers that are left. -/
def apply (w : World) (ids : IdStream) : Operation →
    Except WorldError (EntityId × Logged IndexWarning World) × IdStream
  | spawn r => w.spawn ids r
  | move id goal => ((w.moveTo id goal).map fun next => (id, next), ids)
  | despawn id => ((w.despawn id).map fun (_, next) => (id, .quiet next), ids)

end Operation

inductive QueueNotice where
  | full (op : Operation)
  | stopped (op : Operation)
  | rejected (op : Operation) (cause : WorldError)
  | index (warning : IndexWarning)

def QueueNotice.message : QueueNotice → String
  | full op => s!"operation queue full, dropping; op={op.name}"
  | stopped op => s!"operation processor stopped, dropping; op={op.name}"
  | rejected op cause => s!"operation rejected; op={op.name}; err={cause.message}"
  | index warning => warning.message

/-- Counts of processed operations. -/
structure Tally where
  applied : Nat
  failed : Nat
deriving DecidableEq

namespace Tally

def zero : Tally := ⟨0, 0⟩

def total (t : Tally) : Nat :=
  t.applied + t.failed

def add (t u : Tally) : Tally :=
  ⟨t.applied + u.applied, t.failed + u.failed⟩

/-- One more operation, accepted or not. -/
def count (t : Tally) (accepted : Bool) : Tally :=
  if accepted then { t with applied := t.applied + 1 } else { t with failed := t.failed + 1 }

end Tally

/-- Why there can be no queue of a capacity: its places cannot be numbered, or not be stored. -/
inductive QueueFault where
  | unnumbered
  | unstored
deriving DecidableEq

def QueueFault.message : QueueFault → String
  | unnumbered => "bounded channel capacity is too large"
  | unstored => "capacity overflow"

/-- A bounded queue of operations, the front first. -/
structure OperationQueue where
  capacity : Nat
  waiting : List Operation
deriving DecidableEq

namespace OperationQueue

def empty (capacity : Nat) : OperationQueue :=
  { capacity, waiting := [] }

/-- The number of places that a word of 64 bits can tell apart when two of its bits are marks. -/
def numberedPlaces : Nat :=
  Nat.pow 2 62

/-- The number of places of 64 bytes in a table of at most `2 ^ 63 - 1` bytes. -/
def storedPlaces : Nat :=
  (Nat.pow 2 63 - 1) / 64

/-- A queue in which nothing waits, of a capacity below the number of places that can be numbered
and within the number of places that can be stored. -/
def create (capacity : Nat) : Except QueueFault OperationQueue :=
  if numberedPlaces ≤ capacity then .error .unnumbered
  else if storedPlaces < capacity then .error .unstored
  else .ok (empty capacity)

def isFull (q : OperationQueue) : Bool :=
  q.capacity ≤ q.waiting.length

/-- Put an operation at the back, if there is room. -/
def push? (q : OperationQueue) (op : Operation) : Option OperationQueue :=
  if q.isFull then none else some { q with waiting := q.waiting ++ [op] }

end OperationQueue

/-- A world with the identifiers that are left for it, and what has been processed on it. -/
structure Processor where
  world : World
  ids : IdStream
  timer : Stopwatch
  totals : Tally

namespace Processor

def start (world : World) (ids : IdStream) : Processor :=
  { world, ids, timer := .standard, totals := .zero }

/-- Apply one operation, which took the given time. A refused operation leaves the world as it
was. -/
def apply (p : Processor) (op : Operation) (elapsed : Duration) : Logged QueueNotice Processor :=
  match op.apply p.world p.ids with
  | (.ok (_, next), ids) =>
    { value :=
        { world := next.value, ids, timer := p.timer.record elapsed
          totals := p.totals.count true }
      notices := next.notices.map .index }
  | (.error cause, ids) =>
    { value := { p with ids, timer := p.timer.record elapsed, totals := p.totals.count false }
      notices := [.rejected op cause] }

/-- Apply operations in order, each taking no time. -/
def applyAll (p : Processor) (ops : List Operation) : Logged QueueNotice Processor :=
  Logged.foldList (fun p op => p.apply op .zero) p ops

end Processor

end RailAtlas
