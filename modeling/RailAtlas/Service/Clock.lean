import RailAtlas.Service.Settings
import RailAtlas.Service.Stopwatch
import RailAtlas.World.Basic

/-!
# The game clock

At a fixed interval the world advances by one tick, and the event log is cut to its newest events.
How many ticks pass while someone waits follows from the interval, the tick waited for and the
patience of the one who waits.
-/

namespace RailAtlas

/-- One turn of the clock: a step of the world, after which at most `retention` events are kept. -/
def World.advance (w : World) (retention : Nat) : World :=
  w.step.trimEvents retention

/-- A world whose clock is running, with the times its ticks took. -/
structure Clock where
  world : World
  retention : Nat
  timer : Stopwatch

namespace Clock

def start (world : World) (settings : ServiceSettings) : Clock :=
  { world, retention := settings.eventRetention.toNat, timer := .standard }

/-- One tick that took the given time. -/
def tick (c : Clock) (elapsed : Duration) : Clock :=
  { c with world := c.world.advance c.retention, timer := c.timer.record elapsed }

/-- A number of ticks that take no time. -/
def ticks (c : Clock) : Nat → Clock
  | 0 => c
  | n + 1 => ticks (c.tick .zero) n

/-- Whether a wait for a tick is met in time when ticks come at the given interval. A tick that
has come already is met at once. -/
def isMet (interval patience : Duration) (wanted : Nat) : Bool :=
  wanted == 0 || decide (interval.nanos * wanted ≤ patience.nanos)

/-- How many ticks come until a wait is met or given up. -/
def ticksDuring (interval patience : Duration) (wanted : Nat) : Nat :=
  if isMet interval patience wanted then wanted else patience.nanos / interval.nanos

/-- How long to wait for some ticks, with ten ticks to spare. The number of intervals is a 32-bit
quantity and the time is at most the longest duration. -/
def patienceFor (interval : Duration) (wanted : Nat) : Duration :=
  interval.timesClamped (min (wanted + 10) (Nat.pow 2 32 - 1))

end Clock

end RailAtlas
