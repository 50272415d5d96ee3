/-!
# Kinds of entities

Fifteen kinds of things exist. Nine have a place in the world and are indexed; rail edges among
them are directed and take the place of the node they leave. The other six are bookkeeping.
-/

namespace RailAtlas

inductive EntityKind where
  | railNode
  | railEdge
  | station
  | platform
  | gate
  | residence
  | company
  | train
  | human
  | player
  | railLine
  | lineTask
  | step
  | track
  | transport
deriving DecidableEq

namespace EntityKind

def all : List EntityKind :=
  [.railNode, .railEdge, .station, .platform, .gate, .residence, .company, .train, .human,
    .player, .railLine, .lineTask, .step, .track, .transport]

/-- Whether entities of this kind have a place in the world. Players, lines and routes have none. -/
def isSpatial : EntityKind → Bool
  | player | railLine | lineTask | step | track | transport => false
  | _ => true

/-- Whether entities of this kind run from one node to another. -/
def isDirected : EntityKind → Bool
  | railEdge => true
  | _ => false

def name : EntityKind → String
  | railNode => "RailNode"
  | railEdge => "RailEdge"
  | station => "Station"
  | platform => "Platform"
  | gate => "Gate"
  | residence => "Residence"
  | company => "Company"
  | train => "Train"
  | human => "Human"
  | player => "Player"
  | railLine => "RailLine"
  | lineTask => "LineTask"
  | step => "Step"
  | track => "Track"
  | transport => "Transport"

/-- The tag of a kind, one or two letters. -/
def tag : EntityKind → String
  | railNode => "rn"
  | railEdge => "re"
  | station => "st"
  | platform => "pf"
  | gate => "gt"
  | residence => "r"
  | company => "c"
  | train => "tr"
  | human => "h"
  | player => "o"
  | railLine => "l"
  | lineTask => "lt"
  | step => "s"
  | track => "tk"
  | transport => "x"

def ofName? (text : String) : Option EntityKind :=
  all.find? fun k => k.name == text

end EntityKind

end RailAtlas
