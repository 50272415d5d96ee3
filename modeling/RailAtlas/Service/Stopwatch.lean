import RailAtlas.Service.Duration

/-!
# Stopwatches

A stopwatch keeps the latest execution times, up to its capacity, and reports their mean, their
extremes and their number. Samples fill a ring: once it is full, each new sample takes the place of
the oldest one.
-/

namespace RailAtlas

/-- A ring of execution times. `next` is the place of the next sample. -/
structure Stopwatch where
  capacity : Nat
  samples : Array Duration
  next : Nat
deriving DecidableEq

namespace Stopwatch

/-- A stopwatch that keeps the given number of samples, and at least one. -/
def ofCapacity (capacity : Nat) : Stopwatch :=
  { capacity := max capacity 1, samples := #[], next := 0 }

/-- The greatest capacity. A sample takes 16 bytes of a ring of at most `2 ^ 63 - 1` bytes. -/
def capacityLimit : Nat :=
  (Nat.pow 2 63 - 1) / 16

/-- A stopwatch with a capacity, unless its ring would be too large. -/
def create? (capacity : Nat) : Option Stopwatch :=
  if capacityLimit < capacity then none else some (ofCapacity capacity)

def tooLargeMessage : String :=
  "capacity overflow"

def standardCapacity : Nat := 64

def standard : Stopwatch :=
  ofCapacity standardCapacity

def record (s : Stopwatch) (d : Duration) : Stopwatch :=
  { s with
    samples :=
      if s.samples.size < s.capacity then s.samples.push d else s.samples.setIfInBounds s.next d
    next := (s.next + 1) % s.capacity }

def count (s : Stopwatch) : Nat :=
  s.samples.size

def total (s : Stopwatch) : Nat :=
  s.samples.foldl (fun n d => n + d.nanos) 0

/-- The mean of the samples rounded down to the nanosecond, and zero when there are none. There is
no mean when the sum is longer than the longest duration. -/
def average? (s : Stopwatch) : Option Duration :=
  if Duration.longest.nanos < s.total then none else some ⟨s.total / s.count⟩

/-- The longest sample, and zero when there are none. -/
def longest (s : Stopwatch) : Duration :=
  ⟨s.samples.foldl (fun n d => max n d.nanos) 0⟩

/-- The shortest sample, and zero when there are none. -/
def shortest (s : Stopwatch) : Duration :=
  match s.samples.toList with
  | [] => .zero
  | d :: rest => ⟨rest.foldl (fun n d => min n d.nanos) d.nanos⟩

/-- The wording used when the mean cannot be formed. -/
def overflowMessage : String :=
  "overflow in iter::sum over durations"

end Stopwatch

end RailAtlas
