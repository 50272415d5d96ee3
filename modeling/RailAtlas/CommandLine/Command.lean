import RailAtlas.CommandLine.Argument
import RailAtlas.Decimal.Spelling
import RailAtlas.Index.Lookup
import RailAtlas.Network

/-!
# Commands

What can be asked for on the command line. Arguments that do not spell exactly one command, or ask
for help, give none.
-/

namespace RailAtlas

inductive Command where
  /-- Show the version and the settings. -/
  | info
  /-- Grow a network and show how it is indexed. -/
  | populate (plan : NetworkPlan)
  /-- Grow a network and look at it. -/
  | view (plan : NetworkPlan) (viewport : Viewport) (json : Bool)
  /-- Run a service with a load of operations. -/
  | run (operations : Nat) (ticks seed : UInt64)

/-- A command line: a command, and where its settings are kept. -/
structure Invocation where
  verbose : Bool
  settingsPath : Option String
  command : Command

namespace Command

def standardSeed : UInt64 := NetworkPlan.standard.seed

def standardViewport : Viewport :=
  { center := { x := 0, y := 0 }, scale := 10, span := 3 }

/-- The value of an option, read in its own way, or a standard value if it is not given. -/
def valueOr? {α : Type} (given : List GivenOption) (name : String) (read : String → Option α)
    (standard : α) : Option α :=
  match valueOf? given name with
  | none => some standard
  | some text => read text

def has (given : List GivenOption) (name : String) : Bool :=
  (valueOf? given name).isSome

/-- The options of a command, none twice and with no other words. -/
def options? (forms : List OptionForm) (args : List String) : Option (List GivenOption) := do
  let (given, words) ← readOptions? forms args
  guard words.isEmpty
  distinct? given

def seedForm : OptionForm :=
  .valued "seed" (some 's')

def planForms : List OptionForm :=
  [.valued "nodes" (some 'n'), .valued "owners" (some 'o'), seedForm]

def plan? (given : List GivenOption) : Option NetworkPlan := do
  let standard := NetworkPlan.standard
  let nodes ← valueOr? given "nodes" (fun text => (wordOfText? text).map UInt64.toNat)
    standard.nodes
  let owners ← valueOr? given "owners" wordOfText? standard.owners
  let seed ← valueOr? given "seed" wordOfText? standard.seed
  return { nodes, owners, seed }

/-- The options of a viewport. Only its center may be written with a hyphen in front. -/
def viewportForms : List OptionForm :=
  [.signed "cx", .signed "cy", .valued "scale" none, .valued "span" none, .flag "json" none]

def viewport? (given : List GivenOption) : Option Viewport := do
  let x ← valueOr? given "cx" floatOfText? standardViewport.center.x
  let y ← valueOr? given "cy" floatOfText? standardViewport.center.y
  let scale ← valueOr? given "scale" floatOfText? standardViewport.scale
  let span ← valueOr? given "span" floatOfText? standardViewport.span
  return { center := { x, y }, scale, span }

def runForms : List OptionForm :=
  [.valued "ops" none, .valued "ticks" none, seedForm]

def parse? (name : String) (args : List String) : Option Command := do
  if name = "info" then
    let _ ← options? [] args
    return .info
  else if name = "populate" then
    let given ← options? planForms args
    return .populate (← plan? given)
  else if name = "view" then
    let given ← options? (planForms ++ viewportForms) args
    return .view (← plan? given) (← viewport? given) (has given "json")
  else if name = "run" then
    let given ← options? runForms args
    let operations ← valueOr? given "ops" wordOfText? 100
    let ticks ← valueOr? given "ticks" wordOfText? 10
    let seed ← valueOr? given "seed" wordOfText? standardSeed
    return .run operations.toNat ticks seed
  else none

end Command

namespace Invocation

def forms : List OptionForm :=
  [.flag "verbose" (some 'v'), .valued "config" (some 'c')]

/-- A path, which may not be empty. -/
def path? (text : String) : Option String :=
  if text.isEmpty then none else some text

def parse? (args : List String) : Option Invocation := do
  let (given, words) ← readOptions? forms args
  let given ← distinct? given
  let settingsPath ← Command.valueOr? given "config" (fun text => (path? text).map some) none
  match words with
  | [] => none
  | name :: rest =>
    return {
      verbose := Command.has given "verbose"
      settingsPath
      command := ← Command.parse? name rest }

end Invocation

end RailAtlas
