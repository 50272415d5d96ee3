import RailAtlas.Service.Stopwatch

/-!
# The ring of a stopwatch in memory

In memory a ring is a row of slots that are there from the start, the next place, and a flag that
is set when the place comes round for the first time. Every access to a slot is checked: a place
out of range gives nothing.
-/

namespace RailAtlas

namespace Stopwatch

/-- A ring as it lies in memory: all its slots, the place of the next sample, and whether every
slot has been written. -/
structure Ring where
  slots : Array Duration
  next : Nat
  filled : Bool
deriving DecidableEq

namespace Ring

/-- A ring of the given number of slots, and of at least one. -/
def create (c : Nat) : Ring :=
  { slots := .replicate (max c 1) .zero, next := 0, filled := false }

/-- Write a sample into the next slot. A place out of range has no slot. -/
def record? (r : Ring) (d : Duration) : Option Ring :=
  if r.next < r.slots.size then
    let next := (r.next + 1) % r.slots.size
    some { slots := r.slots.setIfInBounds r.next d, next, filled := r.filled || next == 0 }
  else none

def recordAll? (r : Ring) (ds : List Duration) : Option Ring :=
  ds.foldlM record? r

/-- The number of slots that have been written. -/
def count (r : Ring) : Nat :=
  if r.filled then r.slots.size else r.next

/-- The slots that have been written, unless there are not so many. -/
def window? (r : Ring) : Option (Array Duration) :=
  if r.count ≤ r.slots.size then some (r.slots.extract 0 r.count) else none

end Ring

end Stopwatch

end RailAtlas
