import Mathlib.Logic.Function.Iterate
import RailAtlas.Ident.Stream

/-!
# The generator can be run backwards

One step of `splitMix` adds a constant, multiplies by odd constants, and folds the high bits of a
word into its low ones. `unmix` undoes these one after the other, last one first. So a state can be
read off any later one, and different states stay different, however many steps are made.
-/

namespace RailAtlas

/-- Fold the high bits of a word into its low ones. -/
def foldHigh (k x : UInt64) : UInt64 :=
  x ^^^ x >>> k

/-- Undo such a folding, if shifting three times leaves nothing. -/
def unfoldHigh (k x : UInt64) : UInt64 :=
  x ^^^ x >>> k ^^^ x >>> k >>> k

/-- The state before one step of the generator. -/
def unmix (word : UInt64) : UInt64 :=
  let z := unfoldHigh 31 word
  let z := unfoldHigh 27 (z * 0x319642b2d24d8ec3)
  let z := unfoldHigh 30 (z * 0x96de1b173f119089)
  z - 0x9e3779b97f4a7c15

section Folding

variable {k : UInt64} (exhausts : 64 ≤ 3 * (k.toNat % 64)) (x : UInt64)
include exhausts

theorem shiftRight_three_times : x >>> k >>> k >>> k = 0 := by
  apply UInt64.toNat_inj.mp
  simp only [UInt64.toNat_shiftRight, ← Nat.shiftRight_add, UInt64.toNat_zero]
  rw [Nat.shiftRight_eq_div_pow, Nat.div_eq_zero_iff_lt (Nat.two_pow_pos _)]
  calc x.toNat < 2 ^ 64 := x.toNat_lt
    _ ≤ _ := Nat.pow_le_pow_right Nat.two_pos (by omega)

/-- What has been shifted once or twice cancels out. -/
theorem unfoldHigh_foldHigh : unfoldHigh k (foldHigh k x) = x := by
  simp only [unfoldHigh, foldHigh, UInt64.shiftRight_xor, shiftRight_three_times exhausts,
    UInt64.xor_zero]
  calc x ^^^ x >>> k ^^^ (x >>> k ^^^ x >>> k >>> k) ^^^ x >>> k >>> k
    _ = x ^^^ (x >>> k ^^^ x >>> k) ^^^ (x >>> k >>> k ^^^ x >>> k >>> k) := by ac_rfl
    _ = x := by simp only [UInt64.xor_self, UInt64.xor_zero]

theorem foldHigh_unfoldHigh : foldHigh k (unfoldHigh k x) = x := by
  have swapped : foldHigh k (unfoldHigh k x) = unfoldHigh k (foldHigh k x) := by
    simp only [foldHigh, unfoldHigh, UInt64.shiftRight_xor]
    ac_rfl
  rw [swapped, unfoldHigh_foldHigh exhausts]

end Folding

/-- Multiplication by a word is undone by multiplication by its inverse. -/
theorem mul_mul_of_inverse {c inverse : UInt64} (h : c * inverse = 1) (x : UInt64) :
    x * c * inverse = x := by
  rw [UInt64.mul_assoc, h, UInt64.mul_one]

theorem splitMix_eq (state : UInt64) : splitMix state =
    foldHigh 31 (foldHigh 27 (foldHigh 30 (state + 0x9e3779b97f4a7c15) * 0xbf58476d1ce4e5b9) *
      0x94d049bb133111eb) :=
  rfl

theorem unmix_splitMix : Function.LeftInverse unmix splitMix := by
  intro state
  simp only [unmix, splitMix_eq]
  rw [unfoldHigh_foldHigh (by decide), mul_mul_of_inverse (by decide),
    unfoldHigh_foldHigh (by decide), mul_mul_of_inverse (by decide),
    unfoldHigh_foldHigh (by decide), UInt64.add_sub_cancel]

theorem splitMix_unmix : Function.RightInverse unmix splitMix := by
  intro word
  simp only [unmix, splitMix_eq]
  rw [UInt64.sub_add_cancel, foldHigh_unfoldHigh (by decide), mul_mul_of_inverse (by decide),
    foldHigh_unfoldHigh (by decide), mul_mul_of_inverse (by decide),
    foldHigh_unfoldHigh (by decide)]

theorem splitMix_injective : Function.Injective splitMix :=
  unmix_splitMix.injective

theorem splitMix_bijective : Function.Bijective splitMix :=
  ⟨splitMix_injective, splitMix_unmix.surjective⟩

end RailAtlas
