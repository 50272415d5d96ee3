import RailAtlas.Arithmetic.Binary
import RailAtlas.Proofs.Arithmetic.Rounding

/-!
# Operations on doubles

Where the exact result of an operation fits, nothing is rounded away and the rank of the result is
the exact one. So it is for sums, differences, changes of sign, halves, powers of two and whole
numbers that are small enough. Where it does not fit, the result is next to it.
-/

namespace RailAtlas

namespace Grid

open Float.Model
open Float.Model.UnpackedFloat

/-! ### Exact triples -/

theorem stands_add {u v : UnpackedFloat} {a b : Int} (hu : Stands u a) (hv : Stands v b)
    (fits : Fits (a + b).natAbs) : Stands (UnpackedFloat.add Format.binary64 u v) (a + b) :=
  (near_add hu hv fits le_rfl).stands fits

theorem stands_sub {u v : UnpackedFloat} {a b : Int} (hu : Stands u a) (hv : Stands v b)
    (fits : Fits (a - b).natAbs) : Stands (UnpackedFloat.sub Format.binary64 u v) (a - b) :=
  (near_sub hu hv fits le_rfl).stands fits

/-- The unit of either sign: multiplying by it changes the sign alone. -/
theorem stands_mul_unit {u : UnpackedFloat} {a : Int} (s : Sign) (first : 0 < 2 ^ 52)
    (hu : Stands u a) :
    Stands (UnpackedFloat.mul Format.binary64 (.finite s (2 ^ 52) (-52) first) u) (s.apply a) := by
  obtain ⟨canonical, finite, rfl⟩ := hu
  cases u with
  | notANumber => cases finite
  | infinity t => cases finite
  | zero t => exact ⟨trivial, rfl, by cases s <;> rfl⟩
  | finite t m e hm =>
    have signed : Canonical (.finite (s * t) m e hm) := canonical
    have product := roundWithAccuracy_shifted signed 52
    rw [mul_comm, Int.sub_eq_add_neg, add_comm e] at product
    refine ⟨?_, ?_, ?_⟩ <;> simp only [UnpackedFloat.mul]
    · exact product ▸ canonical
    · exact product ▸ rfl
    · rw [show roundWithAccuracy Format.binary64 (s * t) (2 ^ 52 * m) (-52 + e) .exact = _
        from product]
      cases s <;> cases t <;> simp [rankOf, Sign.apply]

/-! ### Doubles -/

theorem stands_unpack {x : Float} (h : x.isFinite = true) : Stands x.toModel.unpack (rank x) :=
  ⟨canonical_unpack _, h, rfl⟩

theorem encoded_stands {u : UnpackedFloat} {r : Int} (h : Stands u r) :
    (encoded u).isFinite = true ∧ rank (encoded u) = r :=
  ⟨(isFinite_encoded h.canonical).trans h.finite, (rank_encoded h.canonical).trans h.rank_eq⟩

theorem near_encoded {u : UnpackedFloat} {num : Int} {den : Nat} (h : Near u num den) :
    Near (encoded u).toModel.unpack num den := by
  rwa [unpack_encoded h.canonical]

/-- A difference that a double bounds is next to the exact one. -/
theorem near_unpack_sub {x y : Float} (hx : x.isFinite = true) (hy : y.isFinite = true) {B : Nat}
    (fits : Fits B) (bound : (rank x - rank y).natAbs ≤ B) :
    Near (x - y).toModel.unpack (rank x - rank y) 1 :=
  near_encoded (near_sub (stands_unpack hx) (stands_unpack hy) fits bound)

/-- A sum that fits is exact. -/
theorem add_exact {x y : Float} (hx : x.isFinite = true) (hy : y.isFinite = true)
    (fits : Fits (rank x + rank y).natAbs) :
    (x + y).isFinite = true ∧ rank (x + y) = rank x + rank y :=
  encoded_stands (stands_add (stands_unpack hx) (stands_unpack hy) fits)

/-- A difference that fits is exact. -/
theorem sub_exact {x y : Float} (hx : x.isFinite = true) (hy : y.isFinite = true)
    (fits : Fits (rank x - rank y).natAbs) :
    (x - y).isFinite = true ∧ rank (x - y) = rank x - rank y :=
  encoded_stands (stands_sub (stands_unpack hx) (stands_unpack hy) fits)

/-- A direction times a length: the length, negated for the negative direction. -/
theorem direction_mul {d : Int} (direction : d = -1 ∨ d = 1) {x : Float} (hx : x.isFinite = true) :
    (Float.ofInt d * x).isFinite = true ∧ rank (Float.ofInt d * x) = d * rank x := by
  obtain rfl | rfl := direction
  · have product := stands_mul_unit .negative (by decide) (stands_unpack hx)
    rw [show Sign.negative.apply (rank x) = -1 * rank x from (neg_one_mul _).symm] at product
    exact encoded_stands product
  · have product := stands_mul_unit .positive (by decide) (stands_unpack hx)
    rw [show Sign.positive.apply (rank x) = 1 * rank x from (one_mul _).symm] at product
    exact encoded_stands product

/-! ### Powers of two -/

theorem toNat_packComponents {f : Nat} (field : f < 2 ^ 11) :
    (packComponents Format.binary64 .positive (BitVec.ofNat 11 f) 0#52).toNat = f * 2 ^ 52 := by
  have positions : (0#1 ++ BitVec.ofNat 11 f ++ 0#52).toNat = f * 2 ^ 52 := by
    rw [BitVec.toNat_append, BitVec.toNat_append]
    simpa [Nat.shiftLeft_eq] using field
  exact positions

theorem canonical_powerOfTwo {k : Int} (least : -1022 ≤ k) (greatest : k < 1024) :
    Canonical (.finite .positive (2 ^ 52) (k - 52) (by decide)) :=
  ⟨by decide, by omega, by omega, .inl le_rfl⟩

/-- A power of two in the range of full precision has the first of its 53 places alone. -/
theorem powerOfTwo_eq {k : Int} (least : -1022 ≤ k) (greatest : k < 1024) :
    powerOfTwo k = encoded (.finite .positive (2 ^ 52) (k - 52) (by decide)) := by
  obtain ⟨f, hf⟩ := Int.eq_ofNat_of_zero_le (show 0 ≤ k + 1023 by omega)
  have field : f < 2 ^ 11 := by omega
  have bits : (UInt64.ofNat ((k + 1023).toNat * Nat.pow 2 52)).toBitVec =
      UnpackedFloat.pack Format.binary64 (.finite .positive (2 ^ 52) (k - 52) (by decide)) := by
    rw [pack_finite (k := f) (by decide) (by omega) (by omega), if_pos le_rfl, hf]
    apply BitVec.eq_of_toNat_eq
    rw [show BitVec.ofNat 52 (2 ^ 52) = 0#52 by decide, toNat_packComponents field,
      UInt64.toBitVec_ofNat', BitVec.toNat_ofNat, Int.toNat_natCast, Nat.pow_eq]
    omega
  rw [powerOfTwo, if_neg (by omega), if_pos least, Float.ofBits, Float.Model.ofBits, bits,
    unpack_pack (canonical_powerOfTwo least greatest)]
  rfl

theorem stands_powerOfTwo {k : Int} (least : -1022 ≤ k) (greatest : k < 1024) :
    Stands (.finite .positive (2 ^ 52) (k - 52) (by decide)) (multiple 1 k) := by
  refine ⟨canonical_powerOfTwo least greatest, rfl, ?_⟩
  have places : (k + 1074).toNat = 52 + (k - 52 + 1074).toNat := by omega
  rw [rankOf, Sign.apply, multiple, multiple, one_mul, places, pow_add]

theorem powerOfTwo_exact {k : Int} (least : -1022 ≤ k) (greatest : k < 1024) :
    (powerOfTwo k).isFinite = true ∧ rank (powerOfTwo k) = multiple 1 k := by
  rw [powerOfTwo_eq least greatest]
  exact encoded_stands (stands_powerOfTwo least greatest)

section Scaling

variable {x : Float} (hx : x.isFinite = true) {k : Int} (least : -1022 ≤ k) (greatest : k < 1024)
variable {B : Nat} (fits : Fits B)
include hx least greatest fits

/-- A product with a power of two that a double bounds is next to the exact one. -/
theorem near_unpack_mul (bound : (rank x).natAbs * multiple 1 k ≤ B * multiple 1 0) :
    Near (x * powerOfTwo k).toModel.unpack (rank x * multiple 1 k) (multiple 1 0) := by
  have near := near_mul_powerOfTwo (stands_unpack hx) least fits bound
  rw [← unpack_encoded (canonical_powerOfTwo least greatest),
    ← powerOfTwo_eq least greatest] at near
  exact near_encoded near

/-- A quotient by a power of two that a double bounds is next to the exact one. -/
theorem near_unpack_div (bound : (rank x).natAbs * multiple 1 0 ≤ B * multiple 1 k) :
    Near (x / powerOfTwo k).toModel.unpack (rank x * multiple 1 0) (multiple 1 k) := by
  have near := near_div_powerOfTwo (stands_unpack hx) least fits bound
  rw [← unpack_encoded (canonical_powerOfTwo least greatest),
    ← powerOfTwo_eq least greatest] at near
  exact near_encoded near

end Scaling

theorem unpack_two : (2 : Float).toModel.unpack = .finite .positive (2 ^ 52) (-51) (by decide) :=
  rfl

/-- Half of a power of two is the one before it. -/
theorem powerOfTwo_half {k : Int} (least : -1020 ≤ k) (greatest : k < 1024) :
    powerOfTwo k / 2 = powerOfTwo (k - 1) := by
  have canonical := canonical_powerOfTwo (k := k - 1) (by omega) (by omega)
  have quotient : divCore Format.binary64 (2 ^ 52) (k - 52) (2 ^ 52) (-51) =
      (2 ^ 52 * 2 ^ 1, k - 1 - 52 - (1 : Nat), .exact) := by
    have target : min (k - 52 - -51) (Format.binary64.targetExponent
        (totalExponent (2 ^ 52) (k - 52) - totalExponent (2 ^ 52) (-51))) = k - 54 := by
      change min (k - 52 - -51) (max (52 + 1 + (k - 52) - (52 + 1 + -51) - 53) (-1074)) = k - 54
      omega
    have amount : (k - 52 - -51 - (k - 54)).toNat = 53 := by omega
    simp only [divCore, target, amount]
    exact Prod.ext rfl (Prod.ext (by push_cast; omega) rfl)
  have half : UnpackedFloat.div Format.binary64
      (.finite .positive (2 ^ 52) (k - 52) (by decide))
      (.finite .positive (2 ^ 52) (-51) (by decide))
      = .finite .positive (2 ^ 52) (k - 1 - 52) (by decide) := by
    rw [UnpackedFloat.div, quotient]
    exact roundWithAccuracy_shifted canonical 1
  rw [powerOfTwo_eq (by omega) greatest, powerOfTwo_eq (by omega) (by omega)]
  have unfolded : encoded (.finite .positive (2 ^ 52) (k - 52) (by decide)) / 2 =
      encoded (UnpackedFloat.div Format.binary64
        (encoded (.finite .positive (2 ^ 52) (k - 52) (by decide))).toModel.unpack
        (2 : Float).toModel.unpack) := rfl
  rw [unfolded, unpack_encoded (canonical_powerOfTwo (by omega) greatest), unpack_two, half]

/-! ### Whole numbers -/

theorem sign_mul_comm (s t : Sign) : s * t = t * s := by
  cases s <;> cases t <;> rfl

theorem mul_comm_unpacked (u v : UnpackedFloat) :
    UnpackedFloat.mul Format.binary64 u v = UnpackedFloat.mul Format.binary64 v u := by
  cases u <;> cases v <;>
    simp only [UnpackedFloat.mul, sign_mul_comm, Nat.mul_comm, Int.add_comm]

theorem toNat_toUInt64 {n : Nat} (small : n < 2 ^ 53) : n.toUInt64.toNat = n :=
  UInt64.toNat_ofNat_of_lt (small.trans (by decide))

theorem stands_ofUInt64 {n : Nat} (small : n < 2 ^ 53) :
    Stands (UnpackedFloat.ofUInt64 Format.binary64 n.toUInt64) (n * multiple 1 0) := by
  have fits : Fits ((n : Int) * 2 ^ (0 + 1074 : Int).toNat).natAbs := by
    rw [natAbs_multiple, Int.natAbs_natCast]
    refine fits_of_dvd (multiple_lt small (by decide)) (Dvd.intro_left n rfl) ?_
    rw [pow_add, mul_comm]
    exact Nat.mul_le_mul_right _ small.le
  have stands := (near_normalize .positive (by decide) fits le_rfl).stands fits
  rw [UnpackedFloat.ofUInt64, UnpackedFloat.ofNat, UnpackedFloat.ofInt, toNat_toUInt64 small]
  rw [multiple, one_mul]
  exact_mod_cast stands

/-- A whole number below `2 ^ 53` is a double. -/
theorem ofNat_exact {n : Nat} (small : n < 2 ^ 53) :
    (Float.ofNat n).isFinite = true ∧ rank (Float.ofNat n) = n * multiple 1 0 := by
  have whole := stands_ofUInt64 small
  have unfolded : Float.ofNat n = encoded (UnpackedFloat.mul Format.binary64
      (encoded (UnpackedFloat.ofUInt64 Format.binary64 n.toUInt64)).toModel.unpack
      (Float.ofBits 0x3FF0000000000000).toModel.unpack) := by
    rw [Float.ofNat]
    change Float.ofScientific n false 0 = _
    rw [Float.ofScientific, dif_pos ⟨small, by decide⟩]
    rfl
  have unit : (Float.ofBits 0x3FF0000000000000).toModel.unpack =
      .finite .positive (2 ^ 52) (-52) (by decide) := rfl
  rw [unfolded, unpack_encoded whole.canonical, unit, mul_comm_unpacked]
  exact encoded_stands (stands_mul_unit .positive (by decide) whole)

theorem neg_exact {x : Float} (hx : x.isFinite = true) :
    x.neg.isFinite = true ∧ rank x.neg = -rank x :=
  encoded_stands (stands_neg (stands_unpack hx))

/-- A whole number of magnitude below `2 ^ 53` is a double. -/
theorem ofInt_exact {n : Int} (small : n.natAbs < 2 ^ 53) :
    (Float.ofInt n).isFinite = true ∧ rank (Float.ofInt n) = n * multiple 1 0 := by
  cases n with
  | ofNat n => exact ofNat_exact small
  | negSucc n =>
    obtain ⟨finite, place⟩ := ofNat_exact (n := n.succ) small
    obtain ⟨finite', place'⟩ := neg_exact finite
    exact ⟨finite', by rw [Float.ofInt, place', place, Int.negSucc_eq]; push_cast; ring⟩

/-- A whole multiple of a power of two is exact if it fits. -/
theorem ofInt_mul_powerOfTwo {n k : Int} (small : n.natAbs < 2 ^ 53) (least : -1022 ≤ k)
    (greatest : k < 1024) (fits : Fits (n * multiple 1 k).natAbs) :
    (Float.ofInt n * powerOfTwo k).isFinite = true ∧
      rank (Float.ofInt n * powerOfTwo k) = n * multiple 1 k := by
  obtain ⟨finite, place⟩ := ofInt_exact small
  have near := near_unpack_mul finite least greatest fits (by
    rw [place, Int.natAbs_mul, Int.natAbs_mul, Int.natAbs_natCast, Int.natAbs_natCast,
      mul_right_comm])
  exact ⟨near.finite, near.rank_eq fits (by rw [place, mul_right_comm])⟩

/-- Whole numbers keep their order as doubles. -/
theorem ofInt_lt_ofInt {m n : Int} (hm : m.natAbs < 2 ^ 53) (hn : n.natAbs < 2 ^ 53) :
    Float.ofInt m < Float.ofInt n ↔ m < n := by
  obtain ⟨finite, place⟩ := ofInt_exact hm
  obtain ⟨finite', place'⟩ := ofInt_exact hn
  have positive : (0 : Int) < multiple 1 0 := Int.natCast_pos.mpr (multiple_pos (by decide))
  rw [lt_iff_of_finite finite finite', place, place', Int.mul_lt_mul_right positive]

end Grid

end RailAtlas
