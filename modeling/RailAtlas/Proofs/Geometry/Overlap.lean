import RailAtlas.Proofs.Arithmetic.Numbers
import RailAtlas.Proofs.Geometry.Tiling

/-!
# Overlap of closed squares

Two squares meet if on each axis the larger of their lower borders is at most the smaller of their
upper ones. A border that is no number gives way to the other one. So as soon as the borders of one
square are finite, the squares meet exactly if some finite point lies between these and is not cut
off by a border of the other square.

The borders of a square of an index are finite, also where they are rounded: its center is at most
2000 steps away from the origin, and no step is longer than half the world square.
-/

namespace RailAtlas

open Grid

/-! ### Intervals and frames -/

/-- A closed interval, given by its ends. -/
structure Interval where
  low : Float
  high : Float

namespace Interval

/-- A number lies between the ends. Nothing does if an end is no number. -/
def Covers (i : Interval) (x : Float) : Prop :=
  i.low ≤ x ∧ x ≤ i.high

/-- A number lies beyond neither end. Nothing is beyond an end that is no number. -/
def Admits (i : Interval) (x : Float) : Prop :=
  ¬ x < i.low ∧ ¬ i.high < x

def Numeric (i : Interval) : Prop :=
  i.low.isNaN = false ∧ i.high.isNaN = false

def Bounded (i : Interval) : Prop :=
  i.low.isFinite = true ∧ i.high.isFinite = true

variable {i j : Interval} {x : Float}

theorem Covers.numeric (h : i.Covers x) : i.Numeric :=
  ⟨(le_iff.mp h.1).1, (le_iff.mp h.2).2.1⟩

theorem Bounded.numeric (h : i.Bounded) : i.Numeric :=
  ⟨isNaN_eq_false h.1, isNaN_eq_false h.2⟩

/-- Between ends that are numbers lies what is beyond neither. -/
theorem admits_iff_covers (numeric : i.Numeric) (number : x.isNaN = false) :
    i.Admits x ↔ i.Covers x := by
  simp only [Admits, Covers, lt_iff, le_iff, numeric.1, numeric.2, number, true_and, not_lt]

/-- What lies between finite ends is finite. -/
theorem Covers.isFinite (h : i.Covers x) (bounded : i.Bounded) : x.isFinite = true := by
  obtain ⟨numberLow, number, low⟩ := le_iff.mp h.1
  obtain ⟨-, numberHigh, high⟩ := le_iff.mp h.2
  have least := (isFinite_iff_of_number numberLow).mp bounded.1
  have greatest := (isFinite_iff_of_number numberHigh).mp bounded.2
  rw [isFinite_iff_of_number number]
  omega

/-- The test for overlap on one axis finds a number between the ends of the first interval that the
second one admits. -/
theorem larger_le_smaller_iff (bounded : i.Bounded) :
    larger i.low j.low ≤ smaller i.high j.high ↔
      ∃ x, x.isFinite = true ∧ i.Covers x ∧ j.Admits x := by
  have numeric := bounded.numeric
  constructor
  · intro overlap
    have number : (larger i.low j.low).isNaN = false := isNaN_larger numeric.1
    obtain ⟨low, above⟩ := (larger_le_iff numeric.1).mp (le_self number)
    obtain ⟨high, below⟩ := (le_smaller_iff numeric.2).mp overlap
    exact ⟨_, Covers.isFinite ⟨low, high⟩ bounded, ⟨low, high⟩, above, below⟩
  · rintro ⟨x, -, ⟨low, high⟩, above, below⟩
    exact le_of_le_of_le ((larger_le_iff numeric.1).mpr ⟨low, above⟩)
      ((le_smaller_iff numeric.2).mpr ⟨high, below⟩)

end Interval

/-- The borders of a square: an interval on each axis. -/
structure Frame where
  columns : Interval
  rows : Interval

namespace Frame

/-- The borders of the square that reaches `half` from its center. -/
def around (center : Point) (half : Float) : Frame :=
  { columns := ⟨center.x - half, center.x + half⟩, rows := ⟨center.y - half, center.y + half⟩ }

/-- A point lies between the borders. -/
def Covers (f : Frame) (p : Point) : Prop :=
  f.columns.Covers p.x ∧ f.rows.Covers p.y

/-- A point lies beyond no border. -/
def Admits (f : Frame) (p : Point) : Prop :=
  f.columns.Admits p.x ∧ f.rows.Admits p.y

def Numeric (f : Frame) : Prop :=
  f.columns.Numeric ∧ f.rows.Numeric

def Bounded (f : Frame) : Prop :=
  f.columns.Bounded ∧ f.rows.Bounded

variable {f : Frame} {p : Point}

theorem Covers.numeric (h : f.Covers p) : f.Numeric :=
  ⟨h.1.numeric, h.2.numeric⟩

/-- Between borders that are numbers lies what is beyond none of them. -/
theorem admits_iff_covers (numeric : f.Numeric) (finite : p.isFinite = true) :
    f.Admits p ↔ f.Covers p := by
  rw [Point.isFinite, Bool.and_eq_true] at finite
  exact and_congr (Interval.admits_iff_covers numeric.1 (isNaN_eq_false finite.1))
    (Interval.admits_iff_covers numeric.2 (isNaN_eq_false finite.2))

/-- All borders around a center are numbers if the center and half the side are, and not both of
these are infinite. -/
theorem numeric_around_iff {center : Point} {half : Float} : (around center half).Numeric ↔
    center.x.isNaN = false ∧ center.y.isNaN = false ∧ half.isNaN = false ∧
      (center.isFinite = true ∨ half.isFinite = true) := by
  rw [Numeric, Interval.Numeric, Interval.Numeric, around, isNaN_sides_iff, isNaN_sides_iff,
    Point.isFinite, Bool.and_eq_true]
  tauto

end Frame

namespace Square

def frame (s : Square) : Frame :=
  .around s.center s.half

variable {s : Square} {center : Point} {scale : Float}

/-- A square with finite borders meets another one exactly if it covers a finite point that is
beyond no border of the other. -/
theorem meets_iff (bounded : s.frame.Bounded) : s.meets center scale = true ↔
    ∃ p : Point, p.isFinite = true ∧ s.frame.Covers p ∧
      (Frame.around center (halfSide scale)).Admits p := by
  have columns := @Interval.larger_le_smaller_iff _ (Frame.around center (halfSide scale)).columns
    bounded.1
  have rows := @Interval.larger_le_smaller_iff _ (Frame.around center (halfSide scale)).rows
    bounded.2
  rw [meets, Bool.and_eq_true, decide_eq_true_eq, decide_eq_true_eq]
  refine (and_congr columns rows).trans ⟨?_, ?_⟩
  · rintro ⟨⟨x, finite, across, clear⟩, y, finite', along, clear'⟩
    exact ⟨⟨x, y⟩, by rw [Point.isFinite, finite, finite', Bool.and_self], ⟨across, along⟩,
      clear, clear'⟩
  · rintro ⟨p, finite, ⟨across, along⟩, clear, clear'⟩
    rw [Point.isFinite, Bool.and_eq_true] at finite
    exact ⟨⟨p.x, finite.1, across, clear⟩, p.y, finite.2, along, clear'⟩

end Square

/-! ### Borders below the world square -/

namespace Grid

variable {x y : Float} {m n : Nat} {k : Int}

/-- A coordinate is finite and at most `n` times `2 ^ k` away from zero. -/
structure Within (n : Nat) (k : Int) (x : Float) : Prop where
  finite : x.isFinite = true
  bound : (rank x).natAbs ≤ n * multiple 1 k

theorem multiple_mono {e f : Int} (h : e ≤ f) : multiple 1 e ≤ multiple 1 f :=
  Nat.mul_le_mul_left _ (Nat.pow_le_pow_right (by decide) (by omega))

theorem within_powerOfTwo {e : Int} (least : -1022 ≤ e) (high : e ≤ k) (greatest : k < 1024) :
    Within 1 k (powerOfTwo e) := by
  obtain ⟨finite, place⟩ := powerOfTwo_exact least (high.trans_lt greatest)
  refine ⟨finite, ?_⟩
  rw [place, Int.natAbs_natCast, one_mul]
  exact multiple_mono high

namespace Within

section Rounded

variable (few : n ≤ 2 ^ 12) (least : -1074 ≤ k) (greatest : k ≤ 1000)
include few least greatest

/-- Rounding does not leave the range of a few powers of two. -/
theorem of_near {a : Int} (h : ∀ {B : Nat}, Fits B → a.natAbs ≤ B → Near x.toModel.unpack a 1)
    (bound : a.natAbs ≤ n * multiple 1 k) : Within n k x := by
  have fits : Fits (n * multiple 1 k) := by
    have := @fits_grid n k 12 few (by decide) least (by push_cast; omega)
    rwa [Int.natAbs_mul, Int.natAbs_natCast, Int.natAbs_natCast] at this
  have near := h fits bound
  have low := near.low (-(n * multiple 1 k : Nat)) (by rwa [Int.natAbs_neg, Int.natAbs_natCast])
    (by omega)
  have high := near.high (n * multiple 1 k : Nat) (by rwa [Int.natAbs_natCast]) (by omega)
  refine ⟨near.finite, ?_⟩
  change (rankOf x.toModel.unpack).natAbs ≤ _
  omega

theorem add {i j : Nat} (hx : Within i k x) (hy : Within j k y) (sum : i + j = n) :
    Within n k (x + y) := by
  refine of_near few least greatest
    (fun fits bound => near_encoded (near_add (stands_unpack hx.finite) (stands_unpack hy.finite)
      fits bound)) ?_
  have := hx.bound
  have := hy.bound
  rw [← sum, Nat.add_mul]
  omega

theorem sub {i j : Nat} (hx : Within i k x) (hy : Within j k y) (sum : i + j = n) :
    Within n k (x - y) := by
  refine of_near few least greatest
    (fun fits bound => near_unpack_sub hx.finite hy.finite fits bound) ?_
  have := hx.bound
  have := hy.bound
  rw [← sum, Nat.add_mul]
  omega

end Rounded

end Within

end Grid

namespace Square

/-- A square whose center is reached from the origin by `n` steps of at most `2 ^ k` on each axis
and which reaches no further from its center itself. -/
structure Confined (n : Nat) (k : Int) (s : Square) : Prop where
  x : Within n k s.center.x
  y : Within n k s.center.y
  least : -1000 ≤ s.scale
  greatest : s.scale ≤ k + 1

namespace Confined

variable {s : Square} {n : Nat} {k : Int}

/-- A quadrant is one step further away. -/
theorem quadrant (h : s.Confined n k) (few : n < 2 ^ 12) (finer : -1000 < s.scale)
    (greatest : k ≤ 1000) (q : Quadrant) : (s.quadrant q).Confined (n + 1) k := by
  have := h.least
  have := h.greatest
  have step {d : Int} (direction : d = -1 ∨ d = 1) :
      Within 1 k (Float.ofInt d * powerOfTwo (s.scale - 2)) := by
    have length := within_powerOfTwo (e := s.scale - 2) (k := k) (by omega) (by omega) (by omega)
    obtain ⟨finite, place⟩ := direction_mul direction length.finite
    refine ⟨finite, ?_⟩
    have bound := length.bound
    obtain rfl | rfl := direction <;> omega
  have shorter : (s.quadrant q).scale = s.scale - 1 := rfl
  exact ⟨h.x.add few (by omega) greatest (step (direction_dx q)) rfl,
    h.y.add few (by omega) greatest (step (direction_dy q)) rfl, by omega, by omega⟩

/-- The borders of a square are finite. -/
theorem bounded (h : s.Confined n k) (few : n < 2 ^ 12) (greatest : k ≤ 1000) :
    s.frame.Bounded := by
  have := h.least
  have := h.greatest
  have half : Within 1 k s.half := by
    rw [Square.half, side, powerOfTwo_half (by omega) (by omega)]
    exact within_powerOfTwo (by omega) (by omega) (by omega)
  have low : -1074 ≤ k := by omega
  exact ⟨⟨(h.x.sub few low greatest half rfl).finite, (h.x.add few low greatest half rfl).finite⟩,
    (h.y.sub few low greatest half rfl).finite, (h.y.add few low greatest half rfl).finite⟩

end Confined

end Square

end RailAtlas
