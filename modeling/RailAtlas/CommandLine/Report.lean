import RailAtlas.CommandLine.Command
import RailAtlas.Json.View
import RailAtlas.Service.Session
import RailAtlas.World.Fingerprint

/-!
# What commands print

Each command is answered with lines of text. Nothing in them depends on how long anything took.
-/

namespace RailAtlas

inductive CommandError where
  | network (cause : NetworkError)
  | service (cause : ServiceError)
deriving DecidableEq

def CommandError.message : CommandError → String
  | network cause => cause.message
  | service cause => cause.message

def versionLine : String :=
  "railworld-cli v0.1.0"

def Settings.report (s : Settings) : List String :=
  let range := s.index
  let half := plainText (Tree.worldSquare range).half
  [s!"index: scales {range.minScale}..={range.maxScale} ({range.depth} levels), " ++
      s!"world half-size {half}",
    s!"service: queue={s.service.queueCapacity}, tick={s.service.tickIntervalMs}ms, " ++
      s!"slow-op={s.service.slowOpWarnMs}ms"]

namespace Network

/-- A network in three lines. The fingerprint is hexadecimal and not padded. -/
def report (n : Network) (plan : NetworkPlan) : List String :=
  let stats := n.world.index.stats
  let hash := String.ofList (Nat.toDigits 16 n.world.stateHash.toNat)
  [s!"Populated: nodes={plan.nodes}, entities={n.world.entityCount}, owners={plan.owners}",
    s!"Index: clusters={stats.clusters}, buckets={stats.buckets}, " ++
      s!"placements={stats.placements}, finest scale={stats.finestScale}",
    s!"State hash: 0x{hash}"]

end Network

def ViewSource.report (s : ViewSource) : String :=
  s!"  {s.cluster.render} {s.chunk.render} {s.owner.render} scale={s.scale}"

def Delegate.report (d : Delegate) : String :=
  s!"  delegate {d.chunk.render} {d.owner.render} {d.kind.name} x{d.members.length} " ++
    s!"at {d.point.render}"

namespace View

/-- A view in lines: what was asked for and how much was found, the sources, the delegates. -/
def report (v : View) (viewport : Viewport) : List String :=
  let center := s!"({oneDecimal viewport.center.x},{oneDecimal viewport.center.y})"
  let asked := s!"scale={plainText viewport.scale} span={plainText viewport.span}"
  let found := s!"entries={v.size}, sources={v.sources.length}, delegates={v.delegates.length}"
  s!"View {center} {asked}: {found}" ::
    (v.sources.map ViewSource.report ++ v.delegates.map Delegate.report)

end View

/-- The operations that load a service: nodes at drawn points, every fifth one a residence, dealt to
four owners in turn. -/
def loadOperations (half : Float) : (count first : Nat) → (state : UInt64) → List Operation
  | 0, _, _ => []
  | count + 1, number, state =>
    let (point, next) := drawPoint state half
    let kind : EntityKind := if number % 5 = 0 then .residence else .railNode
    .spawn { kind, owner := ⟨UInt64.ofNat (number % 4)⟩, shape := .point point } ::
      loadOperations half count (number + 1) next

def ServiceRun.report (r : ServiceRun) : List String :=
  let totals := r.final.processor.totals
  let world := r.final.world
  [s!"Submitted {r.accepted.length}, accepted {r.accepted.count true}, " ++
      s!"applied {totals.applied}, failed {totals.failed}",
    s!"World: entities={world.entityCount}, clusters={world.index.stats.clusters}"]

namespace Command

def answer (c : Command) (settings : Settings) (ids : IdStream) :
    Except CommandError (List String) :=
  match c with
  | .info => .ok (versionLine :: settings.report)
  | .populate plan =>
    match Network.populate settings.index plan ids with
    | .error cause => .error (.network cause)
    | .ok network => .ok (network.report plan)
  | .view plan viewport json =>
    match Network.populate settings.index plan ids with
    | .error cause => .error (.network cause)
    | .ok network =>
      let view := network.world.view viewport
      .ok (if json then view.toJson.pretty else view.report viewport)
  | .run operations ticks seed =>
    let half := (Tree.worldSquare settings.index).half
    let load := loadOperations half operations 0 seed
    let patience := Clock.patienceFor settings.service.tickInterval ticks.toNat
    match Session.orderly settings ids load ticks.toNat patience with
    | .error cause => .error (.service cause)
    | .ok r =>
      .ok (s!"Service run: ops={operations}, ticks={ticks}, seed={seed}" :: r.report)

end Command

end RailAtlas
