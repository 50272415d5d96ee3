import RailAtlas.Arithmetic.Binary
import RailAtlas.Proofs.Arithmetic.Exact

/-!
# Doubles that are no numbers

What is no number is below nothing and above nothing, gives way in `larger` and `smaller`, and comes
out of sums and differences only where infinities cancel. Among the numbers the finite ones are
those of small rank.
-/

namespace RailAtlas

namespace Grid

open Float.Model
open Float.Model.UnpackedFloat

/-! ### Numbers and their ranks -/

variable {a b x y : Float}

theorem natAbs_apply (s : Sign) (n : Nat) : (s.apply (n : Int)).natAbs = n := by
  cases s <;> simp [Sign.apply]

/-- The finite ones among the numbers are those between the infinities. -/
theorem isFinite_iff_of_number (number : x.isNaN = false) :
    x.isFinite = true ↔ (rank x).natAbs < ceiling := by
  have canonical : Canonical x.toModel.unpack := canonical_unpack _
  change x.toModel.unpack.isNaN = false at number
  change x.toModel.unpack.isFinite = true ↔ (rankOf x.toModel.unpack).natAbs < ceiling
  cases hu : x.toModel.unpack with
  | notANumber =>
    rw [hu] at number
    cases number
  | infinity s =>
    refine iff_of_false Bool.false_ne_true ?_
    rw [rankOf, natAbs_apply]
    exact lt_irrefl _
  | zero s => exact iff_of_true rfl ceiling_pos
  | finite s m e positive =>
    rw [hu] at canonical
    refine iff_of_true rfl ?_
    rw [natAbs_rankOf]
    exact (magnitude_bounds canonical).2

theorem le_self (number : x.isNaN = false) : x ≤ x :=
  le_iff.mpr ⟨number, number, le_rfl⟩

theorem le_of_le_of_le (low : a ≤ x) (high : x ≤ b) : a ≤ b := by
  rw [le_iff] at low high ⊢
  exact ⟨low.1, high.2.1, low.2.2.trans high.2.2⟩

theorem larger_of_isNaN (number : a.isNaN = false) (none : b.isNaN = true) : larger a b = a := by
  rw [larger, number, none]
  rfl

theorem larger_of_number (number : a.isNaN = false) (number' : b.isNaN = false) :
    (larger a b).isNaN = false ∧ rank (larger a b) = max (rank a) (rank b) := by
  simp only [larger, number, number', Bool.false_eq_true, if_false, lt_iff, true_and]
  split
  · next less => exact ⟨number', (max_eq_right less.le).symm⟩
  · next most => exact ⟨number, (max_eq_left (not_lt.mp most)).symm⟩

theorem smaller_of_isNaN (number : a.isNaN = false) (none : b.isNaN = true) : smaller a b = a := by
  rw [smaller, number, none]
  rfl

theorem smaller_of_number (number : a.isNaN = false) (number' : b.isNaN = false) :
    (smaller a b).isNaN = false ∧ rank (smaller a b) = min (rank a) (rank b) := by
  simp only [smaller, number, number', Bool.false_eq_true, if_false, lt_iff, true_and]
  split
  · next less => exact ⟨number', (min_eq_right less.le).symm⟩
  · next most => exact ⟨number, (min_eq_left (not_lt.mp most)).symm⟩

theorem isNaN_larger (number : a.isNaN = false) : (larger a b).isNaN = false := by
  cases none : b.isNaN with
  | true => rwa [larger_of_isNaN number none]
  | false => exact (larger_of_number number none).1

/-- At or above the larger of a number and an end lies what is at or above the number and not
below the end. -/
theorem larger_le_iff (number : a.isNaN = false) : larger a b ≤ x ↔ a ≤ x ∧ ¬ x < b := by
  cases none : b.isNaN with
  | true =>
    rw [larger_of_isNaN number none, lt_iff, none]
    simp only [Bool.true_eq_false, false_and, and_false, not_false_eq_true, and_true]
  | false =>
    obtain ⟨number', place⟩ := larger_of_number number none
    rw [le_iff, le_iff, lt_iff, number, none, number', place, max_le_iff]
    simp only [true_and, not_and, not_lt]
    tauto

/-- At or below the smaller of a number and an end lies what is at or below the number and not
above the end. -/
theorem le_smaller_iff (number : a.isNaN = false) : x ≤ smaller a b ↔ x ≤ a ∧ ¬ b < x := by
  cases none : b.isNaN with
  | true =>
    rw [smaller_of_isNaN number none, lt_iff, none]
    simp only [Bool.true_eq_false, false_and, not_false_eq_true, and_true]
  | false =>
    obtain ⟨number', place⟩ := smaller_of_number number none
    rw [le_iff, le_iff, lt_iff, number, none, number', place, le_min_iff]
    simp only [true_and, not_and, not_lt]
    tauto

/-! ### Sums and differences -/

theorem isNaN_packComponents {s : Sign} {k : Nat} {m : BitVec 52} (field : k < 2047) :
    (UnpackedFloat.unpack Format.binary64
      (packComponents Format.binary64 s (BitVec.ofNat 11 k) m)).isNaN = false := by
  have inside : BitVec.ofNat 11 k ≠ -1#11 := by
    intro last
    have same := congrArg BitVec.toNat last
    rw [BitVec.toNat_ofNat, Nat.mod_eq_of_lt (by omega)] at same
    exact absurd same (by simp; omega)
  simp only [UnpackedFloat.unpack, unpackExponent_packComponents, if_neg inside]
  split
  · split <;> rfl
  · rfl

/-- Encoding makes no number out of one that is none, and the other way round. -/
theorem isNaN_encoded (u : UnpackedFloat) : (encoded u).isNaN = u.isNaN := by
  change (UnpackedFloat.unpack Format.binary64 (UnpackedFloat.pack Format.binary64 u)).isNaN =
    u.isNaN
  cases u with
  | notANumber => rfl
  | infinity s => cases s <;> rfl
  | zero s => cases s <;> rfl
  | finite s m e positive =>
    simp only [UnpackedFloat.pack]
    split
    · cases s <;> rfl
    · next inside =>
      have field := Nat.lt_of_succ_lt_succ (Nat.lt_of_not_le inside)
      split
      · exact isNaN_packComponents field
      · exact isNaN_packComponents (k := 0) (by decide)

theorem isNaN_normalize (m e : Int) (zero : Sign) :
    (UnpackedFloat.normalize Format.binary64 m e zero).isNaN = false := by
  have rounded (s : Sign) (n : Nat) :
      (UnpackedFloat.round Format.binary64 s n e).isNaN = false := by
    simp only [UnpackedFloat.round, roundWithAccuracy]
    split <;> rfl
  rw [UnpackedFloat.normalize]
  split
  · exact rounded _ _
  · rfl
  · exact rounded _ _

/-- The sum and the difference of two doubles are numbers if both are, and not both are infinite. -/
theorem isNaN_sides_iff {x y : Float} : ((x - y).isNaN = false ∧ (x + y).isNaN = false) ↔
    x.isNaN = false ∧ y.isNaN = false ∧ (x.isFinite = true ∨ y.isFinite = true) := by
  have difference : (x - y).isNaN = _ :=
    isNaN_encoded (.sub Format.binary64 x.toModel.unpack y.toModel.unpack)
  have sum : (x + y).isNaN = _ :=
    isNaN_encoded (.add Format.binary64 x.toModel.unpack y.toModel.unpack)
  rw [difference, sum]
  change _ ↔ x.toModel.unpack.isNaN = false ∧ y.toModel.unpack.isNaN = false ∧
    (x.toModel.unpack.isFinite = true ∨ y.toModel.unpack.isFinite = true)
  cases x.toModel.unpack <;> cases y.toModel.unpack
  case finite.finite =>
    exact iff_of_true ⟨isNaN_normalize _ _ _, isNaN_normalize _ _ _⟩ ⟨rfl, rfl, .inl rfl⟩
  case infinity.infinity s t => cases s <;> cases t <;> decide
  case zero.zero s t => cases s <;> cases t <;> decide
  all_goals simp [UnpackedFloat.add, UnpackedFloat.sub, UnpackedFloat.isNaN, UnpackedFloat.isFinite]

end Grid

end RailAtlas
