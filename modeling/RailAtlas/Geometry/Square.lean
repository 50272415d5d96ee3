import RailAtlas.Geometry.Point

/-!
# Squares of a quad tree

A square of the tree has a whole scale: its side is `2 ^ scale`. It splits into four quadrants,
each one scale finer and centered a quarter of the side away on both axes.
-/

namespace RailAtlas

/-- The four quadrants of a square, in visiting order. West and north are the negative
directions. -/
inductive Quadrant where
  | northWest
  | northEast
  | southWest
  | southEast
deriving DecidableEq

namespace Quadrant

def all : List Quadrant :=
  [.northWest, .northEast, .southWest, .southEast]

def dx : Quadrant → Int
  | northWest | southWest => -1
  | northEast | southEast => 1

def dy : Quadrant → Int
  | northWest | northEast => -1
  | southWest | southEast => 1

/-- The quadrant in the given directions. A direction that is neither of `-1` and `1` is returned
as the fault, and the vertical one is looked at first. -/
def ofDirections (dx dy : Int) : Except Int Quadrant :=
  if dy ≠ -1 ∧ dy ≠ 1 then .error dy
  else if dx ≠ -1 ∧ dx ≠ 1 then .error dx
  else .ok <| match decide (0 < dx), decide (0 < dy) with
    | false, false => northWest
    | true, false => northEast
    | false, true => southWest
    | true, true => southEast

end Quadrant

/-- A square of side `2 ^ scale` around a center. -/
structure Square where
  center : Point
  scale : Int
deriving DecidableEq

namespace Square

def side (s : Square) : Float :=
  powerOfTwo s.scale

/-- How far a square reaches from its center. -/
def half (s : Square) : Float :=
  s.side / 2

def contains (s : Square) (p : Point) : Bool :=
  p.within s.center s.half

def quadrant (s : Square) (q : Quadrant) : Square :=
  { center := s.center.offset q.dx q.dy (powerOfTwo (s.scale - 2)), scale := s.scale - 1 }

/-- Whether the square and the one of side `2 ^ scale` around another center have a point in
common when both are taken closed: on each axis the larger of the lower ends is at most the
smaller of the upper ends. -/
def meets (s : Square) (center : Point) (scale : Float) : Bool :=
  let mine := s.half
  let other := halfSide scale
  decide (larger (s.center.x - mine) (center.x - other)
      ≤ smaller (s.center.x + mine) (center.x + other)) &&
    decide (larger (s.center.y - mine) (center.y - other)
      ≤ smaller (s.center.y + mine) (center.y + other))

end Square

end RailAtlas
