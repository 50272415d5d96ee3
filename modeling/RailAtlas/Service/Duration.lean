/-!
# Durations

A duration is a whole number of nanoseconds. The longest one has 64 bits of seconds and a fraction
just below a second; longer sums are refused or cut off there.
-/

namespace RailAtlas

/-- A span of time in nanoseconds. -/
structure Duration where
  nanos : Nat
deriving DecidableEq

namespace Duration

def perSecond : Nat := 1000000000

def longest : Duration :=
  ⟨Nat.pow 2 64 * perSecond - 1⟩

def zero : Duration := ⟨0⟩

/-- Whole seconds and further nanoseconds. -/
def ofParts (seconds nanos : Nat) : Duration :=
  ⟨seconds * perSecond + nanos⟩

def ofMillis (n : Nat) : Duration :=
  ⟨n * 1000000⟩

def seconds (d : Duration) : Nat :=
  d.nanos / perSecond

/-- The nanoseconds beyond the whole seconds. -/
def subsecond (d : Duration) : Nat :=
  d.nanos % perSecond

/-- A multiple of a duration, at most the longest one. -/
def timesClamped (d : Duration) (n : Nat) : Duration :=
  ⟨min (d.nanos * n) longest.nanos⟩

end Duration

end RailAtlas
