import RailAtlas.Index.ScaleRange
import RailAtlas.Service.Duration

/-!
# Settings

The scales of the index together with the settings of the queue and the clock. Settings are checked
as a whole before a service is started.
-/

namespace RailAtlas

structure ServiceSettings where
  queueCapacity : UInt64
  tickIntervalMs : UInt64
  slowOpWarnMs : UInt64
  eventRetention : UInt64
deriving DecidableEq

namespace ServiceSettings

def standard : ServiceSettings :=
  { queueCapacity := 64, tickIntervalMs := 100, slowOpWarnMs := 50, eventRetention := 1024 }

def tickInterval (s : ServiceSettings) : Duration :=
  .ofMillis s.tickIntervalMs.toNat

/-- The time above which an operation or a tick counts as slow. -/
def slowThreshold (s : ServiceSettings) : Duration :=
  .ofMillis s.slowOpWarnMs.toNat

end ServiceSettings

/-- Everything needed to start a service. -/
structure Settings where
  index : ScaleRange
  service : ServiceSettings
deriving DecidableEq

inductive SettingsFault where
  | index (cause : IndexError)
  | noQueue
  | noInterval
deriving DecidableEq

def SettingsFault.message : SettingsFault → String
  | index cause => "invalid config: " ++ cause.message
  | noQueue => "invalid config: queue_capacity must be positive"
  | noInterval => "invalid config: tick_interval_ms must be positive"

namespace Settings

def standard : Settings :=
  { index := .standard, service := .standard }

/-- Settings are valid when the scales are, and when the queue and the tick interval are not
empty. They are checked in this order. -/
def validate (s : Settings) : Except SettingsFault Unit :=
  match s.index.validate with
  | .error cause => .error (.index cause)
  | .ok () =>
    if s.service.queueCapacity = 0 then .error .noQueue
    else if s.service.tickIntervalMs = 0 then .error .noInterval
    else .ok ()

end Settings

end RailAtlas
