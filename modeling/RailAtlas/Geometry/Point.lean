import RailAtlas.Arithmetic.Exponential
import RailAtlas.Decimal.Text

/-!
# Points of the plane

Coordinates are doubles. A square is given by its center and the binary logarithm of its side and
is half open on both axes, so two squares that share an edge never both hold a point of it.
-/

namespace RailAtlas

structure Point where
  x : Float
  y : Float
deriving DecidableEq

/-- Half the side of a square of side `2 ^ scale`. -/
def halfSide (scale : Float) : Float :=
  exp2 scale / 2

namespace Point

def origin : Point :=
  { x := 0, y := 0 }

/-- Two points coincide when their coordinates are equal as numbers: zeros of either sign are
equal, and a coordinate that is no number is equal to nothing. -/
def coincides (p q : Point) : Bool :=
  p.x == q.x && p.y == q.y

def isFinite (p : Point) : Bool :=
  p.x.isFinite && p.y.isFinite

/-- Whether a point lies in the half-open square that reaches `half` from its center. -/
def within (p center : Point) (half : Float) : Bool :=
  decide (center.x - half ≤ p.x) && decide (p.x < center.x + half) &&
    (decide (center.y - half ≤ p.y) && decide (p.y < center.y + half))

/-- Whether a point lies in the square of side `2 ^ scale` around a center. -/
def isIn (p center : Point) (scale : Float) : Bool :=
  p.within center (halfSide scale)

/-- The point moved by `dx` and `dy` times a length. -/
def offset (p : Point) (dx dy : Int) (length : Float) : Point :=
  { x := p.x + Float.ofInt dx * length, y := p.y + Float.ofInt dy * length }

def distance (p q : Point) : Float :=
  let dx := p.x - q.x
  let dy := p.y - q.y
  (dx * dx + dy * dy).sqrt

def add (p q : Point) : Point :=
  { x := p.x + q.x, y := p.y + q.y }

/-- The mean of some points, summed in the order given from zero. -/
def mean (points : List Point) : Point :=
  let sum := points.foldl add origin
  let n := Float.ofNat points.length
  { x := sum.x / n, y := sum.y / n }

def render (p : Point) : String :=
  "(" ++ oneDecimal p.x ++ "," ++ oneDecimal p.y ++ ")"

end Point

end RailAtlas
