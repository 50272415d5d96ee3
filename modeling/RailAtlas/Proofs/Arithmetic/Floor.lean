import RailAtlas.Proofs.Arithmetic.Exact

/-!
# Floors

A double written out has the mantissa and the exponent of its encoding, so its rank is the mantissa
in units of the least positive double. From this the floor is read off: it is the whole number
whose rank is the last one not above that of the double.
-/

namespace RailAtlas

namespace Grid

open Float.Model
open Float.Model.UnpackedFloat

/-! ### Fields of an encoding -/

section Fields

variable (b : BitVec 64)

theorem toNat_unpackMantissa :
    (@unpackMantissa Format.binary64 b).toNat = b.toNat % 2 ^ 52 := by
  rw [unpackMantissa, BitVec.toNat_cast, BitVec.extractLsb_toNat, Nat.shiftRight_zero]
  rfl

theorem toNat_unpackExponent :
    (@unpackExponent Format.binary64 b).toNat = b.toNat / 2 ^ 52 % 2048 := by
  rw [unpackExponent, BitVec.toNat_cast, BitVec.extractLsb_toNat, Nat.shiftRight_eq_div_pow]
  rfl

theorem toNat_unpackSign :
    (@unpackSign Format.binary64 b).toNat = b.toNat / 2 ^ 63 % 2 := by
  rw [unpackSign, BitVec.toNat_cast, BitVec.extractLsb_toNat, Nat.shiftRight_eq_div_pow]
  rfl

end Fields

theorem ofBitVec_unpackSign (b : BitVec 64) : Sign.ofBitVec (@unpackSign Format.binary64 b)
    = if b.toNat / 2 ^ 63 % 2 = 1 then .negative else .positive := by
  have positive : @unpackSign Format.binary64 b = 0#1 ↔ ¬ b.toNat / 2 ^ 63 % 2 = 1 := by
    rw [BitVec.toNat_eq, toNat_unpackSign]
    exact Nat.mod_two_ne_one.symm
  simp only [Sign.ofBitVec, positive, ite_not]

/-- A finite encoding has the rank of its fields written out. -/
theorem rankOf_unpack (b : BitVec 64)
    (finite : (UnpackedFloat.unpack Format.binary64 b).isFinite = true) :
    -1074 ≤ (Binary.ofBits b.toNat).exponent ∧ rankOf (UnpackedFloat.unpack Format.binary64 b) =
      (Binary.ofBits b.toNat).signed * 2 ^ ((Binary.ofBits b.toNat).exponent + 1074).toNat := by
  have mantissa := toNat_unpackMantissa b
  have exponent := toNat_unpackExponent b
  have signed (m : Nat) (e : Int) :
      (Sign.ofBitVec (@unpackSign Format.binary64 b)).apply (multiple m e) =
        (if b.toNat / 2 ^ 63 % 2 = 1 then -(m : Int) else m) * 2 ^ (e + 1074).toNat := by
    rw [ofBitVec_unpackSign]
    split <;> simp [Sign.apply, multiple]
  have fraction := toNat_one_append (@unpackMantissa Format.binary64 b)
  simp only [Binary.ofBits, Binary.signed, Nat.pow_eq, beq_iff_eq, ← signed]
  refine ⟨by split <;> omega, ?_⟩
  unfold UnpackedFloat.unpack at finite ⊢
  simp only [bias_eq, BitVec.toNat_eq, exponent, mantissa] at finite ⊢
  split at finite
  · split at finite <;> cases finite
  · next inside =>
    rw [if_neg inside]
    split
    · next least =>
      replace least : b.toNat / 2 ^ 52 % 2048 = 0 := least
      rw [if_pos least, if_pos least]
      split
      · next none =>
        replace none : b.toNat % 2 ^ 52 = 0 := none
        rw [none, multiple, Nat.zero_mul, rankOf]
        cases Sign.ofBitVec (@unpackSign Format.binary64 b) <;> rfl
      · rw [rankOf, least]
        rfl
    · next normal =>
      replace normal : ¬ b.toNat / 2 ^ 52 % 2048 = 0 := normal
      rw [if_neg normal, if_neg normal, rankOf, fraction, mantissa, Nat.add_comm]
      rfl

/-- The floor is the last whole number whose rank is not above that of the value. -/
theorem floor_eq_iff {b : Binary} (least : -1074 ≤ b.exponent) {k : Int} :
    b.floor = k ↔ k * multiple 1 0 ≤ b.signed * 2 ^ (b.exponent + 1074).toNat ∧
      b.signed * 2 ^ (b.exponent + 1074).toNat < (k + 1) * multiple 1 0 := by
  have unit : (multiple 1 0 : Int) = 2 ^ (0 + 1074 : Int).toNat := by
    rw [multiple, one_mul, Nat.cast_pow, Nat.cast_ofNat]
  rw [Binary.floor, Binary.floorScaled, Nat.cast_zero, add_zero, unit]
  split
  · next whole =>
    have places : (b.exponent + 1074).toNat = b.exponent.toNat + (0 + 1074 : Int).toNat := by omega
    rw [places, pow_add, ← mul_assoc, Int.mul_le_mul_right (by positivity),
      Int.mul_lt_mul_right (by positivity), Nat.pow_eq, Nat.cast_pow, Nat.cast_ofNat]
    omega
  · next fraction =>
    have places : (0 + 1074 : Int).toNat =
        (-b.exponent).toNat + (b.exponent + 1074).toNat := by omega
    rw [places, pow_add, ← mul_assoc, ← mul_assoc, Int.mul_le_mul_right (by positivity),
      Int.mul_lt_mul_right (by positivity), add_one_mul, Nat.pow_eq, Nat.cast_pow, Nat.cast_ofNat,
      Int.fdiv_eq_ediv_of_nonneg _ (by positivity), Int.ediv_eq_iff_of_pos (by positivity)]

/-- A double between two neighbouring whole numbers has the lower one as its floor, as long as this
is in the range of the result. -/
theorem floorClamped_eq {x : Float} (finite : x.isFinite = true) {k : Int}
    (low : k * multiple 1 0 ≤ rank x) (high : rank x < (k + 1) * multiple 1 0)
    (small : k.natAbs < 2 ^ 63) : floorClamped x = k := by
  obtain ⟨least, place⟩ := rankOf_unpack x.toModel.toBits.toBitVec finite
  change rank x = _ at place
  rw [place] at low high
  have floor : (Binary.ofFloat x).floor = k := (floor_eq_iff least).mpr ⟨low, high⟩
  rw [floorClamped, if_neg (by rw [isNaN_eq_false finite]; decide), if_pos finite, floor,
    Nat.pow_eq]
  omega

end Grid

end RailAtlas
