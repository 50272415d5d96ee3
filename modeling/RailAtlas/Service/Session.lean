import RailAtlas.Service.Clock
import RailAtlas.Service.Queue

/-!
# A running service

A service is a world that is changed by two parties: a processor that applies queued operations one
at a time, and a clock. Clients may submit at any moment. Shutting down stops the clock, asks the
processor to stop, lets it apply what still waits, takes its report, and at last lets the queue go.

Each of these is one action, and an action is possible only in some states. Any interleaving of
possible actions is a run of the service.
-/

namespace RailAtlas

/-- Where the processor is in its life. -/
inductive ProcessorPhase where
  /-- It takes operations as they come. -/
  | running
  /-- It was asked to stop and applies what still waits. -/
  | draining
  /-- It has found the queue empty and reported; the queue still exists. -/
  | finished
  /-- The queue is gone. -/
  | gone
deriving DecidableEq

structure Session where
  queue : OperationQueue
  processor : Processor
  phase : ProcessorPhase
  stopRequested : Bool
  ticking : Bool
  retention : Nat
  tickTimer : Stopwatch

inductive Action where
  | submit (op : Operation)
  | process (elapsed : Duration)
  | tick (elapsed : Duration)
  | stopClock
  | requestStop
  | noticeStop
  | finish
  | release
deriving DecidableEq

namespace Session

/-- A service on a world, with nothing waiting and the clock running. It needs a queue of the
capacity that the settings ask for. -/
def start (world : World) (ids : IdStream) (settings : ServiceSettings) :
    Except QueueFault Session :=
  (OperationQueue.create settings.queueCapacity.toNat).map fun queue =>
    { queue
      processor := .start world ids
      phase := .running
      stopRequested := false
      ticking := true
      retention := settings.eventRetention.toNat
      tickTimer := .standard }

def world (s : Session) : World :=
  s.processor.world

/-- Whether an operation submitted now would be taken. -/
def accepts (s : Session) : Bool :=
  s.phase != .gone && !s.queue.isFull

/-- Submit an operation. It is dropped with a notice when the queue is gone or full. -/
def submit (s : Session) (op : Operation) : Logged QueueNotice Session :=
  if s.phase = .gone then { value := s, notices := [.stopped op] }
  else
    match s.queue.push? op with
    | some queue => .quiet { s with queue }
    | none => { value := s, notices := [.full op] }

/-- Whether the processor takes operations from the queue. -/
def isProcessing (s : Session) : Bool :=
  s.phase == .running || s.phase == .draining

/-- Take the operation at the front of the queue and apply it. -/
def process (s : Session) (elapsed : Duration) : Option (Logged QueueNotice Session) :=
  if s.isProcessing then
    match s.queue.waiting with
    | [] => none
    | op :: rest =>
      some <| (s.processor.apply op elapsed).map fun processor =>
        { s with queue := { s.queue with waiting := rest }, processor }
  else none

/-- Let the processor go at once. Operations that still wait are never applied. -/
def dropProcessor (s : Session) : Session :=
  { s with phase := .gone }

def tick (s : Session) (elapsed : Duration) : Session :=
  { s with
    processor := { s.processor with world := s.world.advance s.retention }
    tickTimer := s.tickTimer.record elapsed }

/-- One action, if it is possible. -/
def perform (s : Session) : Action → Option (Logged QueueNotice Session)
  | .submit op => some (s.submit op)
  | .process elapsed => s.process elapsed
  | .tick elapsed => if s.ticking then some (.quiet (s.tick elapsed)) else none
  | .stopClock => if s.ticking then some (.quiet { s with ticking := false }) else none
  | .requestStop =>
    if !s.ticking && !s.stopRequested then some (.quiet { s with stopRequested := true }) else none
  | .noticeStop =>
    if s.phase = .running ∧ s.stopRequested then some (.quiet { s with phase := .draining })
    else none
  | .finish =>
    if s.phase = .draining ∧ s.queue.waiting = [] then some (.quiet { s with phase := .finished })
    else none
  | .release =>
    if s.phase = .finished then some (.quiet { s with phase := .gone }) else none

/-- Perform actions in order, passing over those that are not possible. -/
def performAll (s : Session) (actions : List Action) : Logged QueueNotice Session :=
  Logged.foldList (fun s a => (s.perform a).getD (.quiet s)) s actions

/-- The actions of an orderly shutdown, when `n` operations wait. -/
def shutdown (n : Nat) : List Action :=
  [.stopClock, .requestStop, .noticeStop] ++ List.replicate n (.process .zero) ++
    [.finish, .release]

end Session

inductive ServiceError where
  | settings (fault : SettingsFault)
  | world (cause : WorldError)
  | queue (fault : QueueFault)
deriving DecidableEq

def ServiceError.message : ServiceError → String
  | settings fault => fault.message
  | world cause => cause.message
  | queue fault => fault.message

/-- What an orderly run of a service comes to. -/
structure ServiceRun where
  /-- For each operation, whether it was taken. -/
  accepted : List Bool
  /-- Whether the tick waited for came in time. -/
  reached : Bool
  /-- The service after shutdown, its event log taken out. -/
  final : Session
  /-- The events retained at shutdown. -/
  events : List Event

namespace Session

/-- Start a service with valid settings. -/
def establish (settings : Settings) (ids : IdStream) : Except ServiceError Session :=
  match settings.validate with
  | .error fault => .error (.settings fault)
  | .ok () =>
    match World.create settings.index 0 with
    | .error cause => .error (.world cause)
    | .ok world => (start world ids settings.service).mapError .queue

/-- Submit operations one after the other, each being applied before the next one comes. -/
def submitEach (s : Session) : List Operation → List Bool × Session
  | [] => ([], s)
  | op :: rest =>
    let taken := s.accepts
    let s := (s.performAll [.submit op, .process .zero]).value
    let (others, s) := submitEach s rest
    (taken :: others, s)

/-- An orderly run: submit operations, wait for a tick, shut down. -/
def orderly (settings : Settings) (ids : IdStream) (ops : List Operation) (wanted : Nat)
    (patience : Duration) : Except ServiceError ServiceRun := do
  let s ← establish settings ids
  let (accepted, s) := s.submitEach ops
  let interval := settings.service.tickInterval
  let n := Clock.ticksDuring interval patience wanted
  let s := (s.performAll (List.replicate n (.tick .zero))).value
  let s := (s.performAll (shutdown s.queue.waiting.length)).value
  let (events, world) := s.world.drainEvents
  return {
    accepted
    reached := Clock.isMet interval patience wanted
    final := { s with processor := { s.processor with world } }
    events := events.toList }

end Session

end RailAtlas
