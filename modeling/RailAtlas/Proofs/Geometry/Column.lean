import RailAtlas.Proofs.Arithmetic.Floor
import RailAtlas.Proofs.Geometry.Tiling

/-!
# Columns of squares

The squares of one scale stand in columns, counted from that of a given square. In which one a
coordinate lies is a matter of ranks, and nothing is rounded in it. It is computed as the distance
from the lower border of the given square in sides, and this is rounded twice. Since the borders
are doubles, the result can only reach the next border, not pass it: the computed column is the
right one, unless the coordinate is `Carried` to the border that follows it.
-/

namespace RailAtlas

open Grid

namespace Column

/-- How many sides a coordinate is away from the lower border of a square, as it is computed. -/
def quotient (scale : Int) (c x : Float) : Float :=
  (x - (c - powerOfTwo scale / 2)) / powerOfTwo scale

/-- The column in which a coordinate lies, counted from the square around `c`. -/
def number (scale : Int) (c x : Float) : Int :=
  (rank x - (rank c - multiple 1 (scale - 1))) / multiple 1 scale

/-- Rounding moves a coordinate onto a border that it has not reached: the distance comes out as a
whole number of sides, though the coordinate lies before the border of this number. -/
def Carried (scale : Int) (c x : Float) : Prop :=
  ∃ n : Int, rank (quotient scale c x) = n * multiple 1 0 ∧
    rank x < rank (c - powerOfTwo scale / 2) + n * multiple 1 scale

/-- A coordinate of the world square, seen from squares that are `depth` scales finer. -/
structure Inside (depth : Nat) (scale : Int) (x : Float) : Prop where
  finite : x.isFinite = true
  low : -((2 ^ depth : Nat) * multiple 1 (scale - 1) : Int) ≤ rank x
  high : rank x < (2 ^ depth : Nat) * multiple 1 (scale - 1)

theorem unit_pos (k : Int) : (0 : Int) < multiple 1 k :=
  Int.natCast_pos.mpr (multiple_pos Nat.one_pos)

/-- A coordinate is in the column whose borders it lies between. -/
theorem number_eq_iff {scale : Int} {c x : Float} {k : Int} : number scale c x = k ↔
    rank c - multiple 1 (scale - 1) + k * multiple 1 scale ≤ rank x ∧
      rank x < rank c - multiple 1 (scale - 1) + (k + 1) * multiple 1 scale := by
  rw [number, Int.ediv_eq_iff_of_pos (unit_pos scale), add_one_mul]
  omega

theorem natAbs_le_of_between {k r : Int} {n unit : Nat} (few : k.natAbs ≤ n) (low : k * unit ≤ r)
    (high : r ≤ (k + 1) * unit) : r.natAbs ≤ (n + 1) * unit := by
  have least : -(n + 1 : Nat) * (unit : Int) ≤ k * unit :=
    Int.mul_le_mul_of_nonneg_right (by omega) (Int.natCast_nonneg _)
  have greatest : (k + 1) * (unit : Int) ≤ (n + 1 : Nat) * unit :=
    Int.mul_le_mul_of_nonneg_right (by omega) (Int.natCast_nonneg _)
  rw [neg_mul, ← Nat.cast_mul] at least
  rw [← Nat.cast_mul] at greatest
  omega

section Units

variable {depth : Nat} {k : Int} (short : depth ≤ 52) (least : -1074 ≤ k)
  (greatest : depth + k < 1023)
include short least greatest

/-- Whole numbers up to those of the columns of the world square are doubles, in any unit. -/
theorem fits_units {n : Int} (few : n.natAbs ≤ 2 ^ depth + 1) : Fits (n * multiple 1 k).natAbs := by
  have places : n.natAbs ≤ 2 ^ (depth + 1) := by
    have := Nat.one_le_two_pow (n := depth)
    rw [pow_succ]
    omega
  exact fits_grid places (by omega) least (by push_cast; omega)

theorem fits_all_units : Fits ((2 ^ depth + 1) * multiple 1 k) := by
  have fits := fits_units short least greatest (n := (2 ^ depth + 1 : Nat))
    (Int.natAbs_natCast _).le
  rwa [← Nat.cast_mul, Int.natAbs_natCast] at fits

end Units

end Column

namespace Aligned

open Column

variable {depth : Nat} {scale : Int} {c x : Float}

theorem side_eq (h : Aligned depth scale c) :
    (multiple 1 scale : Int) = 2 * multiple 1 (scale - 1) := by
  have := h.least
  exact_mod_cast (sub_add_cancel scale 1) ▸ multiple_succ 1 (e := scale - 1) (by omega)

/-- Whole numbers of half sides are doubles up to a few more than the world square has. -/
theorem fits_halves (h : Aligned depth scale c) (short : depth ≤ 52) {n : Int}
    (few : n.natAbs ≤ 2 ^ depth + 3) : Fits (n * multiple 1 (scale - 1)).natAbs := by
  have := h.least
  have := h.greatest
  obtain less | rfl := Nat.lt_or_eq_of_le short
  · have places : n.natAbs ≤ 2 ^ (depth + 2) := by
      have := Nat.one_le_two_pow (n := depth)
      rw [pow_add]
      omega
    exact fits_grid places (by omega) (by omega) (by push_cast; omega)
  · have places : n.natAbs ≤ 2 ^ 53 := by omega
    exact fits_grid places le_rfl (by omega) (by push_cast at *; omega)

/-- The lower border of a square, from which columns are counted. -/
theorem border_exact (h : Aligned depth scale c) : (c - powerOfTwo scale / 2).isFinite = true ∧
    rank (c - powerOfTwo scale / 2) = rank c - multiple 1 (scale - 1) := by
  have := h.least
  have := h.greatest
  rw [powerOfTwo_half (by omega) (by omega)]
  obtain ⟨finite, place⟩ := powerOfTwo_exact (k := scale - 1) (by omega) (by omega)
  exact h.lower finite place

section Inside

variable (h : Aligned depth scale c) (inside : Inside depth scale x)
include h inside

/-- The column of a coordinate of the world square has its center in the world square. -/
theorem number_bounds {z : Int} (hz : rank c = z * multiple 1 (scale - 1)) :
    -(2 ^ depth : Nat) ≤ z + 2 * number scale c x ∧
      z + 2 * number scale c x ≤ (2 ^ depth : Nat) := by
  obtain ⟨-, low, high⟩ := inside
  obtain ⟨lower, upper⟩ := number_eq_iff.mp (@rfl _ (number scale c x))
  generalize number scale c x = k at *
  rw [h.side_eq, hz] at lower upper
  have below : z + 2 * k - 1 < (2 ^ depth : Nat) := by
    rw [← Int.mul_lt_mul_right (unit_pos (scale - 1))]
    linarith
  have above : -(2 ^ depth : Nat) < z + 2 * k + 1 := by
    rw [← Int.mul_lt_mul_right (unit_pos (scale - 1))]
    linarith
  omega

theorem natAbs_number_le : (number scale c x).natAbs ≤ 2 ^ depth := by
  obtain ⟨z, hz, small⟩ := h.grid
  have := h.number_bounds inside hz
  omega

variable (short : depth ≤ 52)
include short

/-- Rounded, the distance from the lower border is still between those of the column. -/
theorem difference_bounds : (x - (c - powerOfTwo scale / 2)).isFinite = true ∧
    number scale c x * multiple 1 scale ≤ rank (x - (c - powerOfTwo scale / 2)) ∧
    rank (x - (c - powerOfTwo scale / 2)) ≤ (number scale c x + 1) * multiple 1 scale := by
  have := h.least
  have := h.greatest
  have few := h.natAbs_number_le inside
  obtain ⟨lower, upper⟩ := number_eq_iff.mp (@rfl _ (number scale c x))
  obtain ⟨border_finite, border⟩ := h.border_exact
  have fits {n : Int} (few : n.natAbs ≤ 2 ^ depth + 1) : Fits (n * multiple 1 scale).natAbs :=
    fits_units short (by omega) (by omega) few
  have near := near_unpack_sub inside.finite border_finite
    (fits_all_units short (k := scale) (by omega) (by omega)) (by
      rw [border]
      exact natAbs_le_of_between few (by omega) (by omega))
  refine ⟨near.finite, near.low _ (fits (by omega)) ?_, near.high _ (fits (by omega)) ?_⟩ <;>
    rw [Nat.cast_one, mul_one, border] <;> omega

/-- So is the number of sides. -/
theorem quotient_bounds : (quotient scale c x).isFinite = true ∧
    number scale c x * multiple 1 0 ≤ rank (quotient scale c x) ∧
    rank (quotient scale c x) ≤ (number scale c x + 1) * multiple 1 0 := by
  have := h.least
  have := h.greatest
  have few := h.natAbs_number_le inside
  obtain ⟨finite, lower, upper⟩ := h.difference_bounds inside short
  have fits {n : Int} (few : n.natAbs ≤ 2 ^ depth + 1) : Fits (n * multiple 1 0).natAbs :=
    fits_units short (by decide) (by omega) few
  have near := near_unpack_div finite (k := scale) (by omega) (by omega)
    (fits_all_units short (k := 0) (by decide) (by omega)) (by
      rw [mul_right_comm]
      exact Nat.mul_le_mul_right _ (natAbs_le_of_between few lower upper))
  refine ⟨near.finite, near.low _ (fits (by omega)) ?_, near.high _ (fits (by omega)) ?_⟩ <;>
    rw [mul_right_comm]
  · exact Int.mul_le_mul_of_nonneg_right lower (Int.natCast_nonneg _)
  · exact Int.mul_le_mul_of_nonneg_right upper (Int.natCast_nonneg _)

theorem carried_iff :
    Carried scale c x ↔ rank (quotient scale c x) = (number scale c x + 1) * multiple 1 0 := by
  obtain ⟨-, -, reached⟩ := h.quotient_bounds inside short
  obtain ⟨lower, upper⟩ := number_eq_iff.mp (@rfl _ (number scale c x))
  rw [Carried, h.border_exact.2]
  constructor
  · rintro ⟨n, same, before⟩
    rw [same, Int.mul_le_mul_right (unit_pos 0)] at reached
    have passed : number scale c x < n := by
      rw [← Int.mul_lt_mul_right (unit_pos scale)]
      omega
    rw [same, le_antisymm reached (Int.add_one_le_iff.mpr passed)]
  · intro same
    exact ⟨_, same, upper⟩

/-- The computed column is the next one for a coordinate that is carried, and the right one for any
other. -/
theorem floorClamped_quotient : floorClamped (quotient scale c x) =
    if rank (quotient scale c x) = (number scale c x + 1) * multiple 1 0 then number scale c x + 1
    else number scale c x := by
  have few := h.natAbs_number_le inside
  have bound : 2 ^ depth ≤ 2 ^ 52 := Nat.pow_le_pow_right (by decide) short
  obtain ⟨finite, lower, upper⟩ := h.quotient_bounds inside short
  split
  · next carried =>
    refine floorClamped_eq finite carried.ge ?_ (by omega)
    rw [carried, Int.mul_lt_mul_right (unit_pos 0)]
    omega
  · next apart => exact floorClamped_eq finite lower (lt_of_le_of_ne upper apart) (by omega)

theorem floorClamped_quotient_eq_iff :
    floorClamped (quotient scale c x) = number scale c x ↔ ¬ Carried scale c x := by
  rw [h.floorClamped_quotient inside short, h.carried_iff inside short]
  split
  · next carried => exact iff_of_false (by omega) (not_not_intro carried)
  · next apart => exact iff_of_true rfl apart

theorem computed_eq_or : floorClamped (quotient scale c x) = number scale c x ∨
    floorClamped (quotient scale c x) = number scale c x + 1 := by
  rw [h.floorClamped_quotient inside short]
  split
  · exact .inr rfl
  · exact .inl rfl

/-- The center of a column that may be computed is exact. -/
theorem center_exact {k : Int} (computed : k = number scale c x ∨ k = number scale c x + 1) :
    ∃ z : Int, z.natAbs ≤ 2 ^ depth + 2 ∧
      rank c + k * multiple 1 scale = z * multiple 1 (scale - 1) ∧
      (c + Float.ofInt k * powerOfTwo scale).isFinite = true ∧
      rank (c + Float.ofInt k * powerOfTwo scale) = z * multiple 1 (scale - 1) := by
  have := h.least
  have := h.greatest
  obtain ⟨z, hz, -⟩ := h.grid
  have few := h.natAbs_number_le inside
  have bounds := h.number_bounds inside hz
  have bound : 2 ^ depth ≤ 2 ^ 52 := Nat.pow_le_pow_right (by decide) short
  have halves : rank c + k * multiple 1 scale = (z + 2 * k) * multiple 1 (scale - 1) := by
    rw [hz, h.side_eq]
    ring
  obtain ⟨shift_finite, shift⟩ := ofInt_mul_powerOfTwo (n := k) (k := scale) (by omega) (by omega)
    (by omega) (fits_units short (by omega) (by omega) (by omega))
  obtain ⟨finite, place⟩ := add_exact h.finite shift_finite (by
    rw [shift, halves]
    exact h.fits_halves short (by omega))
  exact ⟨_, by omega, halves, finite, by rw [place, shift, halves]⟩

/-- Whichever column is computed, the square of it that is given by its center holds the
coordinate exactly if the column is the right one. -/
theorem within_column_iff {half : Float} (hf : half.isFinite = true)
    (hr : rank half = multiple 1 (scale - 1)) :
    let center := c + Float.ofInt (floorClamped (quotient scale c x)) * powerOfTwo scale
    (center - half ≤ x ∧ x < center + half) ↔
      floorClamped (quotient scale c x) = number scale c x := by
  obtain ⟨z, few, halves, finite, place⟩ :=
    h.center_exact inside short (h.computed_eq_or inside short)
  generalize floorClamped (quotient scale c x) = k at halves finite place ⊢
  intro center
  obtain ⟨lower_finite, lower⟩ := sub_exact finite hf (by
    rw [place, hr, ← sub_one_mul]
    exact h.fits_halves short (by omega))
  obtain ⟨upper_finite, upper⟩ := add_exact finite hf (by
    rw [place, hr, ← add_one_mul]
    exact h.fits_halves short (by omega))
  have side := h.side_eq
  rw [le_iff_of_finite lower_finite inside.finite, lt_iff_of_finite inside.finite upper_finite,
    lower, upper, place, hr, ← halves, eq_comm (a := k), number_eq_iff, add_one_mul]
  omega

/-! ### Coordinates of limited precision -/

/-- In units of the 53rd place of the world square the distance from the lower border is a whole
number of at most 53 places. -/
theorem exists_distance {m : Int} (coarse : rank x = m * multiple 1 (scale + depth - 53)) :
    ∃ n : Int, n.natAbs ≤ 2 ^ 53 ∧
      rank x - rank (c - powerOfTwo scale / 2) = n * multiple 1 (scale + depth - 53) := by
  have := h.least
  obtain ⟨z, hz, small⟩ := h.grid
  obtain ⟨-, low, high⟩ := inside
  have half : multiple 1 (scale - 1) = 2 ^ (52 - depth) * multiple 1 (scale + depth - 53) := by
    rw [← multiple_add _ _ (by omega)]
    congr 1
    omega
  have across : 2 ^ depth * multiple 1 (scale - 1) = 2 ^ 52 * multiple 1 (scale + depth - 53) := by
    rw [half, ← mul_assoc, ← pow_add, Nat.add_sub_cancel' short]
  have world : ((2 ^ depth : Nat) * multiple 1 (scale - 1) : Int) =
      2 ^ 52 * multiple 1 (scale + depth - 53) := by exact_mod_cast across
  have border := h.border_exact.2
  rw [hz, ← sub_one_mul] at border
  have above : (z - 1) * multiple 1 (scale - 1) ≤ (2 ^ depth : Nat) * multiple 1 (scale - 1) :=
    Int.mul_le_mul_of_nonneg_right (by omega) (Int.natCast_nonneg _)
  have below :
      -(2 ^ depth : Nat) * (multiple 1 (scale - 1) : Int) ≤ (z - 1) * multiple 1 (scale - 1) :=
    Int.mul_le_mul_of_nonneg_right (by omega) (Int.natCast_nonneg _)
  rw [neg_mul] at below
  have distance : rank x - rank (c - powerOfTwo scale / 2) =
      (m - (z - 1) * 2 ^ (52 - depth)) * multiple 1 (scale + depth - 53) := by
    rw [border, coarse, half]
    push_cast
    ring
  refine ⟨_, ?_, distance⟩
  generalize m - (z - 1) * 2 ^ (52 - depth) = n at distance ⊢
  have upper : n * multiple 1 (scale + depth - 53) ≤ 2 ^ 53 * multiple 1 (scale + depth - 53) := by
    omega
  have lower : -2 ^ 53 * (multiple 1 (scale + depth - 53) : Int) ≤
      n * multiple 1 (scale + depth - 53) := by
    omega
  rw [Int.mul_le_mul_right (unit_pos _)] at upper lower
  omega

/-- For a coordinate whose places end with the 53rd one of the world square nothing is rounded. -/
theorem quotient_exact {m : Int} (coarse : rank x = m * multiple 1 (scale + depth - 53)) :
    rank (quotient scale c x) * multiple 1 scale =
      (rank x - rank (c - powerOfTwo scale / 2)) * multiple 1 0 := by
  have := h.least
  have := h.greatest
  obtain ⟨n, few, distance⟩ := h.exists_distance inside short coarse
  have fits {k : Int} (least : -1074 ≤ k) (greatest : 53 + k < 1024) :
      Fits (n * multiple 1 k).natAbs :=
    fits_grid few le_rfl least greatest
  obtain ⟨finite, difference⟩ := sub_exact inside.finite h.border_exact.1 (by
    rw [distance]
    exact fits (by omega) (by omega))
  have units : multiple 1 (scale + depth - 53) * multiple 1 0 =
      multiple 1 (depth - 53) * multiple 1 scale := by
    have whole := multiple_add 1 (53 - depth) (e := depth - 53) (by omega)
    have side := multiple_add 1 (53 - depth) (e := scale + depth - 53) (by omega)
    rw [show (depth - 53 : Int) + (53 - depth : Nat) = 0 by omega] at whole
    rw [show scale + depth - 53 + (53 - depth : Nat) = scale by omega] at side
    rw [whole, side]
    ring
  have same : rank (x - (c - powerOfTwo scale / 2)) * multiple 1 0 =
      n * multiple 1 (depth - 53) * multiple 1 scale := by
    rw [difference, distance, mul_assoc, mul_assoc]
    exact_mod_cast congrArg (n * ·) (congrArg Nat.cast units)
  have fits_quotient : Fits (n * multiple 1 (depth - 53)).natAbs := fits (by omega) (by omega)
  have near := near_unpack_div finite (k := scale) (by omega) (by omega) fits_quotient (by
    rw [← Int.natAbs_natCast (multiple 1 0), ← Int.natAbs_mul, same, Int.natAbs_mul,
      Int.natAbs_natCast])
  rw [← difference, same]
  exact congrArg (· * _) (near.rank_eq fits_quotient same)

/-- Such a coordinate is not carried. -/
theorem not_carried {m : Int} (coarse : rank x = m * multiple 1 (scale + depth - 53)) :
    ¬ Carried scale c x := by
  rintro ⟨k, whole, before⟩
  have exactly := h.quotient_exact inside short coarse
  rw [whole, mul_right_comm] at exactly
  have reached := mul_right_cancel₀ (unit_pos 0).ne' exactly
  omega

end Inside

end Aligned

namespace Square

variable {depth : Nat} {s : Square} {p : Point}

/-- Rounding carries a point to the next square, on at least one of the axes. -/
def Carries (s : Square) (p : Point) : Prop :=
  Column.Carried s.scale s.center.x p.x ∨ Column.Carried s.scale s.center.y p.y

/-- A point of the world square, seen from squares that are `depth` scales finer. -/
structure Spans (depth : Nat) (s : Square) (p : Point) : Prop where
  x : Column.Inside depth s.scale p.x
  y : Column.Inside depth s.scale p.y

theorem Spans.finite (h : s.Spans depth p) : p.isFinite = true := by
  rw [Point.isFinite, h.x.finite, h.y.finite, Bool.and_self]

namespace Aligned

/-- A square holds the points of column 0 and row 0. -/
theorem contains_iff_number (h : s.Aligned depth) (finite : p.isFinite = true) :
    s.contains p = true ↔ Column.number s.scale s.center.x p.x = 0 ∧
      Column.number s.scale s.center.y p.y = 0 := by
  have side := h.x.side_eq
  rw [h.contains_iff finite, Column.number_eq_iff, Column.number_eq_iff]
  omega

/-- The square of the computed column and row holds the point exactly if both are right. -/
theorem contains_computed_iff (h : s.Aligned depth) (spans : s.Spans depth p) (short : depth ≤ 52) :
    let column := floorClamped (Column.quotient s.scale s.center.x p.x)
    let row := floorClamped (Column.quotient s.scale s.center.y p.y)
    Square.contains
      { center :=
          { x := s.center.x + Float.ofInt column * s.side
            y := s.center.y + Float.ofInt row * s.side }
        scale := s.scale } p = true ↔
      column = Column.number s.scale s.center.x p.x ∧
        row = Column.number s.scale s.center.y p.y := by
  have := h.x.greatest
  obtain ⟨finite, place⟩ := half_exact (s := s) h.x.least (by omega)
  simp only [contains, Point.within, Bool.and_eq_true, decide_eq_true_eq]
  exact and_congr (h.x.within_column_iff spans.x short finite place)
    (h.y.within_column_iff spans.y short finite place)

end Aligned

end Square

end RailAtlas
