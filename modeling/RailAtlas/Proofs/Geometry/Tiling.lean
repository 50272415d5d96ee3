import RailAtlas.Geometry.Square
import RailAtlas.Index.ScaleRange
import RailAtlas.Proofs.Arithmetic.Exact

/-!
# Quadrants tile their square

Centers and borders of squares are doubles, and every step into a quadrant adds to them. As long
as the squares are at most 53 scales below the world square, nothing is rounded: a center is then
a whole multiple of half the side with at most 53 binary places. A square that is `Aligned` in
this way holds exactly the points between its borders on the grid, and each point that it holds is
in exactly one of its quadrants.
-/

namespace RailAtlas

open Grid

/-- A coordinate is the center of a square of a scale, `depth` scales below the world square,
without rounding: it is a whole multiple of half the side, and the square around it stays within
the world square. -/
structure Aligned (depth : Nat) (scale : Int) (c : Float) : Prop where
  finite : c.isFinite = true
  grid : ∃ z : Int, rank c = z * multiple 1 (scale - 1) ∧ z.natAbs < 2 ^ depth
  short : depth ≤ 53
  least : -1000 ≤ scale
  greatest : depth + scale ≤ 1000

namespace Aligned

variable {depth : Nat} {scale : Int} {c : Float}

/-- A sum on the grid of an aligned coordinate is exact. -/
theorem fits (h : Aligned depth scale c) {z : Int} (small : z.natAbs ≤ 2 ^ depth) :
    Fits (z * multiple 1 (scale - 1)).natAbs := by
  have := h.least
  have := h.greatest
  exact fits_grid small h.short (by omega) (by omega)

/-- The lower border next to an aligned coordinate. -/
theorem lower (h : Aligned depth scale c) {half : Float} (hf : half.isFinite = true)
    (hr : rank half = multiple 1 (scale - 1)) :
    (c - half).isFinite = true ∧ rank (c - half) = rank c - multiple 1 (scale - 1) := by
  obtain ⟨z, hz, small⟩ := h.grid
  rw [← hr]
  refine sub_exact h.finite hf ?_
  rw [hz, hr, ← sub_one_mul]
  exact h.fits (by omega)

/-- The upper border next to an aligned coordinate. -/
theorem upper (h : Aligned depth scale c) {half : Float} (hf : half.isFinite = true)
    (hr : rank half = multiple 1 (scale - 1)) :
    (c + half).isFinite = true ∧ rank (c + half) = rank c + multiple 1 (scale - 1) := by
  obtain ⟨z, hz, small⟩ := h.grid
  rw [← hr]
  refine add_exact h.finite hf ?_
  rw [hz, hr, ← add_one_mul]
  exact h.fits (by omega)

/-- The center of a half on one axis is aligned again. -/
theorem child (h : Aligned depth scale c) (deeper : depth < 53) (finer : -1000 < scale)
    {d : Int} (direction : d = -1 ∨ d = 1) :
    Aligned (depth + 1) (scale - 1) (c + Float.ofInt d * powerOfTwo (scale - 2)) ∧
      rank (c + Float.ofInt d * powerOfTwo (scale - 2)) = rank c + d * multiple 1 (scale - 2) := by
  obtain ⟨z, hz, small⟩ := h.grid
  have := h.greatest
  obtain ⟨finite, place⟩ := powerOfTwo_exact (k := scale - 2) (by omega) (by omega)
  obtain ⟨finite', place'⟩ := direction_mul direction finite
  rw [place] at place'
  have doubled : multiple 1 (scale - 1) = 2 * multiple 1 (scale - 2) := by
    rw [← multiple_succ 1 (by omega), show scale - 2 + 1 = scale - 1 by ring]
  have sum : rank c + d * multiple 1 (scale - 2) = (2 * z + d) * multiple 1 (scale - 2) := by
    rw [hz, doubled]
    push_cast
    ring
  have within : (2 * z + d).natAbs < 2 ^ (depth + 1) := by
    rw [pow_succ]
    omega
  obtain ⟨exact_finite, exact_place⟩ := add_exact h.finite finite' (by
    rw [place', sum]
    exact fits_grid within.le (by omega) (by omega) (by push_cast; omega))
  rw [place'] at exact_place
  refine ⟨⟨exact_finite, ⟨2 * z + d, ?_, within⟩, by omega, by omega, by push_cast; omega⟩,
    exact_place⟩
  rw [exact_place, sum, show scale - 1 - 1 = scale - 2 by ring]

end Aligned

namespace Square

structure Aligned (depth : Nat) (s : Square) : Prop where
  x : RailAtlas.Aligned depth s.scale s.center.x
  y : RailAtlas.Aligned depth s.scale s.center.y

/-- The quadrant on a point's side of the center. -/
def toward (s : Square) (p : Point) : Quadrant :=
  match decide (p.x < s.center.x), decide (p.y < s.center.y) with
  | true, true => .northWest
  | false, true => .northEast
  | true, false => .southWest
  | false, false => .southEast

variable {depth : Nat} {s : Square} {p : Point}

theorem half_exact (least : -1000 ≤ s.scale) (greatest : s.scale ≤ 1000) :
    s.half.isFinite = true ∧ rank s.half = multiple 1 (s.scale - 1) := by
  rw [half, side, powerOfTwo_half (by omega) (by omega)]
  exact powerOfTwo_exact (by omega) (by omega)

/-- On one axis a point lies in a square if it is between the borders on the grid. -/
theorem axis_iff {scale : Int} {c x half : Float} (h : RailAtlas.Aligned depth scale c)
    (hf : half.isFinite = true) (hr : rank half = multiple 1 (scale - 1)) (hx : x.isFinite = true) :
    (c - half ≤ x ∧ x < c + half) ↔
      rank c - multiple 1 (scale - 1) ≤ rank x ∧ rank x < rank c + multiple 1 (scale - 1) := by
  obtain ⟨finite, place⟩ := h.lower hf hr
  obtain ⟨finite', place'⟩ := h.upper hf hr
  rw [le_iff_of_finite finite hx, lt_iff_of_finite hx finite', place, place']

theorem direction_dx (q : Quadrant) : q.dx = -1 ∨ q.dx = 1 := by
  cases q <;> simp [Quadrant.dx]

theorem direction_dy (q : Quadrant) : q.dy = -1 ∨ q.dy = 1 := by
  cases q <;> simp [Quadrant.dy]

theorem eq_toward_iff {q : Quadrant} : q = s.toward p ↔
    (q.dx = if p.x < s.center.x then -1 else 1) ∧ (q.dy = if p.y < s.center.y then -1 else 1) := by
  by_cases west : p.x < s.center.x <;> by_cases north : p.y < s.center.y <;>
    cases q <;> simp [toward, west, north, Quadrant.dx, Quadrant.dy]

namespace Aligned

/-- An aligned square holds the points between its borders on the grid. -/
theorem contains_iff (h : s.Aligned depth) (finite : p.isFinite = true) :
    s.contains p = true ↔
      (rank s.center.x - multiple 1 (s.scale - 1) ≤ rank p.x ∧
        rank p.x < rank s.center.x + multiple 1 (s.scale - 1)) ∧
      (rank s.center.y - multiple 1 (s.scale - 1) ≤ rank p.y ∧
        rank p.y < rank s.center.y + multiple 1 (s.scale - 1)) := by
  have low := h.x.greatest
  obtain ⟨hf, hr⟩ := half_exact (s := s) h.x.least (by omega)
  rw [Point.isFinite, Bool.and_eq_true] at finite
  rw [← axis_iff h.x hf hr finite.1, ← axis_iff h.y hf hr finite.2]
  simp [contains, Point.within]

/-- The quadrants of an aligned square are aligned. -/
theorem quadrant (h : s.Aligned depth) (deeper : depth < 53) (finer : -1000 < s.scale)
    (q : Quadrant) : (s.quadrant q).Aligned (depth + 1) :=
  ⟨(h.x.child deeper finer (direction_dx q)).1, (h.y.child deeper finer (direction_dy q)).1⟩

/-- On one axis a point of a square is in the half on its side of the center, and in no other. -/
theorem half_iff {scale : Int} {c x : Float} {d : Int} (h : RailAtlas.Aligned depth scale c)
    (deeper : depth < 53) (finer : -1000 < scale) (direction : d = -1 ∨ d = 1)
    (hx : x.isFinite = true) (low : rank c - multiple 1 (scale - 1) ≤ rank x)
    (high : rank x < rank c + multiple 1 (scale - 1)) :
    (rank (c + Float.ofInt d * powerOfTwo (scale - 2)) - multiple 1 (scale - 1 - 1) ≤ rank x ∧
      rank x < rank (c + Float.ofInt d * powerOfTwo (scale - 2)) + multiple 1 (scale - 1 - 1)) ↔
      d = if x < c then -1 else 1 := by
  have doubled : multiple 1 (scale - 1) = 2 * multiple 1 (scale - 2) := by
    rw [← multiple_succ 1 (by omega), show scale - 2 + 1 = scale - 1 by ring]
  have positive : 0 < multiple 1 (scale - 2) := multiple_pos (by decide)
  have side : x < c ↔ rank x < rank c := lt_iff_of_finite hx h.finite
  rw [(h.child deeper finer direction).2, show scale - 1 - 1 = scale - 2 by ring]
  rw [doubled] at low high
  push_cast at low high
  split
  · next west =>
    rw [side] at west
    obtain rfl | rfl := direction <;> omega
  · next east =>
    rw [side] at east
    obtain rfl | rfl := direction <;> omega

/-- A point of an aligned square is in exactly one quadrant. -/
theorem contains_quadrant_iff (h : s.Aligned depth) (deeper : depth < 53) (finer : -1000 < s.scale)
    (finite : p.isFinite = true) (holds : s.contains p = true) (q : Quadrant) :
    (s.quadrant q).contains p = true ↔ q = s.toward p := by
  obtain ⟨hx, hy⟩ := (h.contains_iff finite).mp holds
  rw [(h.quadrant deeper finer q).contains_iff finite, eq_toward_iff]
  rw [Point.isFinite, Bool.and_eq_true] at finite
  exact and_congr (half_iff h.x deeper finer (direction_dx q) finite.1 hx.1 hx.2)
    (half_iff h.y deeper finer (direction_dy q) finite.2 hy.1 hy.2)

end Aligned

/-! ### Overlap -/

/-- A number that lies between both pairs of borders lies between the larger lower and the smaller
upper one. -/
theorem larger_le_smaller {a b c d x : Float} (ha : a ≤ x) (hb : b ≤ x) (hc : x < c) (hd : x < d) :
    larger a b ≤ smaller c d := by
  rw [le_iff] at ha hb
  rw [lt_iff] at hc hd
  have low : (larger a b).isNaN = false ∧ rank (larger a b) ≤ rank x := by
    rw [larger, ha.1, hb.1]
    simp only [Bool.false_eq_true, if_false]
    split
    · exact ⟨hb.1, hb.2.2⟩
    · exact ⟨ha.1, ha.2.2⟩
  have high : (smaller c d).isNaN = false ∧ rank x ≤ rank (smaller c d) := by
    rw [smaller, hc.2.1, hd.2.1]
    simp only [Bool.false_eq_true, if_false]
    split
    · exact ⟨hd.2.1, hd.2.2.le⟩
    · exact ⟨hc.2.1, hc.2.2.le⟩
  exact le_iff.mpr ⟨low.1, high.1, low.2.trans high.2⟩

/-- A square meets another one with which it shares a point. -/
theorem meets_of_contains {center : Point} {scale : Float} (here : s.contains p = true)
    (there : p.isIn center scale = true) : s.meets center scale = true := by
  simp only [contains, Point.isIn, Point.within, Bool.and_eq_true, decide_eq_true_eq] at here there
  simp only [meets, Bool.and_eq_true, decide_eq_true_eq]
  exact ⟨larger_le_smaller here.1.1 there.1.1 here.1.2 there.1.2,
    larger_le_smaller here.2.1 there.2.1 here.2.2 there.2.2⟩

end Square

end RailAtlas
