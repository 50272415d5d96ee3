import RailAtlas.World.Basic

/-!
# Rebuilding a world from its log

Every event is made again through the regular operations, so the index grows along with the
registry and the log of the new world repeats the events.
-/

namespace RailAtlas

namespace World

/-- Make one event again. A despawned entity that is not there is passed over, and a step sets the
clock and the seed to what the event says. -/
def applyEvent (w : World) : Event → Except WorldError (Logged IndexWarning World)
  | .spawned id r => w.spawnWithId id r
  | .despawned id _ =>
    if w.registry.contains id then (w.despawn id).map fun (_, w) => .quiet w else .ok (.quiet w)
  | .moved id _ after => w.moveTo id after
  | .stepped tick seed => .ok (.quiet ({ w with tick, seed }.record (.stepped tick seed)))

/-- Make events again, oldest first. -/
def applyEvents (w : World) : List Event → Except WorldError (Logged IndexWarning World)
  | [] => .ok (.quiet w)
  | e :: rest => do
    let next ← w.applyEvent e
    let last ← applyEvents next.value rest
    return { value := last.value, notices := next.notices ++ last.notices }

/-- Rebuild a world from events. It starts with seed zero. -/
def replay (range : ScaleRange) (events : List Event) :
    Except WorldError (Logged IndexWarning World) := do
  let w ← create range 0
  w.applyEvents events

end World

end RailAtlas
