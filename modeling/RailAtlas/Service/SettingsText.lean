import RailAtlas.Service.Settings
import RailAtlas.Yaml.Integer

/-!
# Settings from a text

Settings are written as a YAML mapping of two sections, each a mapping of numbers. What is left out
keeps its standard value, names that are not known are passed over, and a known name may come only
once. Settings that have been read are checked as a whole.
-/

namespace RailAtlas

/-- Why a text does not give settings: it cannot be had, it does not have the right form, or it
gives settings that are not valid. -/
inductive SettingsError where
  | unreadable
  | malformed
  | invalid (fault : SettingsFault)
deriving DecidableEq

/-- The nodes of a document together with its root, which aliases need. -/
structure Section where
  root : Yaml.Node
  entries : List (String × Yaml.Node)

namespace Section

/-- The names and values of a mapping. Every key has to be a scalar. -/
def named? (root : Yaml.Node) (entries : List (Yaml.Node × Yaml.Node)) :
    Option (List (String × Yaml.Node)) :=
  entries.mapM fun (key, value) =>
    match key.resolve root with
    | some (.scalar _ s) => some (s.text, value)
    | _ => none

/-- A mapping as a section with the given names. A node that is not written out is a section without
entries. -/
def ofNode? (root : Yaml.Node) (known : List String) (node : Yaml.Node) : Option Section :=
  match node.resolve root with
  | some (.mapping _ entries) => do
    let named ← named? root entries
    let used := (named.map (·.1)).filter known.contains
    if used.Nodup then some { root, entries := named } else none
  | some (.scalar _ s) =>
    if s.style = .plain ∧ s.text.isEmpty then some { root, entries := [] } else none
  | _ => none

/-- The section with a name inside another one. One that is left out has no entries. -/
def section? (s : Section) (name : String) (known : List String) : Option Section :=
  match s.entries.lookup name with
  | none => some { root := s.root, entries := [] }
  | some node => ofNode? s.root known node

/-- The text of an integer with a name. -/
def integerText? (s : Section) (node : Yaml.Node) : Option (List Char) :=
  match node.resolve s.root with
  | some (.scalar _ scalar) => scalar.integerText?
  | _ => none

/-- A scale, which is a 32-bit integer, or its standard value. -/
def scale? (s : Section) (name : String) (standard : Int) : Option Int :=
  match s.entries.lookup name with
  | none => some standard
  | some node => do
    let n ← Yaml.signedInteger? (← s.integerText? node)
    if -(Nat.pow 2 31 : Int) ≤ n ∧ n < Nat.pow 2 31 then some n else none

/-- A natural number of 64 bits, or its standard value. -/
def word? (s : Section) (name : String) (standard : UInt64) : Option UInt64 :=
  match s.entries.lookup name with
  | none => some standard
  | some node => do
    let n ← Yaml.unsignedInteger? (← s.integerText? node)
    if n < Nat.pow 2 64 then some (UInt64.ofNat n) else none

end Section

namespace Settings

/-- Settings from a document, not checked yet. -/
def ofNode? (root : Yaml.Node) : Option Settings := do
  let all ← Section.ofNode? root ["index", "service"] root
  let index ← all.section? "index" ["max_scale", "min_scale"]
  let service ← all.section? "service"
    ["queue_capacity", "tick_interval_ms", "slow_op_warn_ms", "event_retention"]
  return {
    index :=
      { maxScale := ← index.scale? "max_scale" standard.index.maxScale
        minScale := ← index.scale? "min_scale" standard.index.minScale }
    service :=
      { queueCapacity := ← service.word? "queue_capacity" standard.service.queueCapacity
        tickIntervalMs := ← service.word? "tick_interval_ms" standard.service.tickIntervalMs
        slowOpWarnMs := ← service.word? "slow_op_warn_ms" standard.service.slowOpWarnMs
        eventRetention := ← service.word? "event_retention" standard.service.eventRetention } }

def parse (text : String) : Except SettingsError Settings :=
  match (Yaml.Node.parse? text).bind ofNode? with
  | none => .error .malformed
  | some settings =>
    match settings.validate with
    | .error fault => .error (.invalid fault)
    | .ok () => .ok settings

/-- Settings from the bytes of a file, which have to be UTF-8. -/
def ofBytes (bytes : ByteArray) : Except SettingsError Settings :=
  match String.fromUTF8? bytes with
  | none => .error .unreadable
  | some text => parse text

end Settings

end RailAtlas
