import RailAtlas.Proofs.Arithmetic.Grid

/-!
# Rounding

Where the exact result of an operation is no double, the result is next to it: no double lies
strictly between the two. `Near u num den` says so of a triple and the fraction `num / den` of
ranks. Nothing more is needed to follow a computation past a border that is itself a double: the
result of rounding is on the same side of it as the exact result, or on the border. And a result
that is a double is met.

Rounding keeps the first 53 binary places of a magnitude, so a whole number is the rank of a double
if it `Fits`, with zeros in all places after these. The exact result is a mantissa with a rest, of
which the model keeps a round bit and a sticky bit. `Describes` says what they have to tell: whether
there is a rest at all.
-/

namespace RailAtlas

namespace Grid

open Float.Model
open Float.Model.UnpackedFloat

/-! ### Ranks of doubles -/

/-- Whole numbers that are ranks of finite doubles: all but the first 53 binary places are
zero. -/
def Fits (n : Nat) : Prop :=
  n < ceiling ∧ 2 ^ (n.log2 - 52) ∣ n

/-- A multiple of a power of two fits as long as it is at most `2 ^ 53` times this power. -/
theorem fits_of_dvd {n k : Nat} (below : n < ceiling) (divides : 2 ^ k ∣ n)
    (bound : n ≤ 2 ^ (k + 53)) : Fits n := by
  refine ⟨below, ?_⟩
  obtain rfl | positive := Nat.eq_zero_or_pos n
  · exact dvd_zero _
  obtain same | less := Nat.eq_or_lt_of_le bound
  · have places : n.log2 = k + 53 := by rw [same, Nat.log2_two_pow]
    rw [places, same]
    exact Nat.pow_dvd_pow 2 (Nat.sub_le _ _)
  · have places : n.log2 < k + 53 := (Nat.log2_lt positive.ne').mpr less
    exact (Nat.pow_dvd_pow 2 (by omega)).trans divides

/-- A number of at most 53 places times a power of two, its first place in range. -/
theorem fits_grid {z k : Int} {places : Nat} (small : z.natAbs ≤ 2 ^ places) (short : places ≤ 53)
    (least : -1074 ≤ k) (low : places + k < 1024) : Fits (z * multiple 1 k).natAbs := by
  have magnitude : (z * multiple 1 k).natAbs = z.natAbs * 2 ^ (k + 1074).toNat := by
    rw [Int.natAbs_mul, Int.natAbs_natCast, multiple, one_mul]
  have bound : z.natAbs * 2 ^ (k + 1074).toNat ≤ 2 ^ ((k + 1074).toNat + places) := by
    rw [pow_add, mul_comm]
    exact Nat.mul_le_mul_left _ small
  have below : 2 ^ ((k + 1074).toNat + places) < ceiling := by
    rw [ceiling, multiple, one_mul]
    exact Nat.pow_lt_pow_right (by decide) (by omega)
  rw [magnitude]
  exact fits_of_dvd (bound.trans_lt below) (Nat.dvd_mul_left _ _)
    (bound.trans (Nat.pow_le_pow_right (by decide) (by omega)))

theorem log2_shifted {m : Nat} (positive : 0 < m) (n : Nat) : (m * 2 ^ n).log2 = m.log2 + n := by
  induction n with
  | zero => simp
  | succ n ih =>
    have nonzero : m * 2 ^ n ≠ 0 := by positivity
    rw [show m * 2 ^ (n + 1) = 2 * (m * 2 ^ n) by ring, Nat.log2_two_mul nonzero, ih]
    omega

/-! ### Rounding what is canonical -/

/-- The exponent that rounding aims at. -/
theorem targetExponent_eq (m : Nat) (e : Int) :
    Format.binary64.targetExponent (totalExponent m e) = max (m.log2 + e - 52) (-1074) := by
  change max ((m.log2 : Int) + 1 + e - 53) (-1074) = _
  congr 1
  omega

theorem log2_le_of_fits {m : Nat} (positive : 0 < m) (fits : m < 2 ^ 53) : m.log2 ≤ 52 :=
  Nat.lt_succ_iff.mp ((Nat.log2_lt (by omega)).mpr fits)

/-- A canonical triple already has the exponent that rounding aims at, also when it is written
with a smaller one. -/
theorem targetExponent_shifted {s : Sign} {m : Nat} {e : Int} {positive : 0 < m}
    (h : Canonical (.finite s m e positive)) (n : Nat) :
    Format.binary64.targetExponent (totalExponent (m * 2 ^ n) (e - n)) = e := by
  obtain ⟨fits, least, -, full⟩ := h
  have upper := log2_le_of_fits positive fits
  have lower := @Nat.le_log2 m 52 (by omega)
  rw [targetExponent_eq, log2_shifted positive]
  omega

/-- Shifting out zeros leaves nothing behind. -/
theorem repeat_shiftRightOne (m n : Nat) :
    n.repeat ExtendedMantissa.shiftRightOne ⟨m * 2 ^ n, false, false⟩ = ⟨m, false, false⟩ := by
  induction n generalizing m with
  | zero => simp [Nat.repeat]
  | succ n ih =>
    rw [Nat.repeat, show m * 2 ^ (n + 1) = m * 2 * 2 ^ n by ring, ih]
    simp [ExtendedMantissa.shiftRightOne]

theorem shiftToTargetExponent_shifted {s : Sign} {m : Nat} {e : Int} {positive : 0 < m}
    (h : Canonical (.finite s m e positive)) (n : Nat) :
    shiftToTargetExponent Format.binary64 (m * 2 ^ n) (e - n) .exact =
      (⟨m, false, false⟩, e) := by
  have amount : (e - (e - n)).toNat = n := by omega
  simp only [shiftToTargetExponent, targetExponent_shifted h, shiftToExponent, amount,
    ExtendedMantissa.ofMantissaAndAccuracy]
  exact Prod.ext (repeat_shiftRightOne m n) (by simp)

/-- Rounding a canonical triple that is written with a smaller exponent gives it back. -/
theorem roundWithAccuracy_shifted {s : Sign} {m : Nat} {e : Int} {positive : 0 < m}
    (h : Canonical (.finite s m e positive)) (n : Nat) :
    roundWithAccuracy Format.binary64 s (m * 2 ^ n) (e - n) .exact =
      .finite s m e positive := by
  have again := shiftToTargetExponent_shifted h 0
  simp only [pow_zero, mul_one, Nat.cast_zero, sub_zero] at again
  simp only [roundWithAccuracy, shiftToTargetExponent_shifted h, ExtendedMantissa.roundedMantissa,
    ExtendedMantissa.accuracy, Accuracy.roundToNearestEven, again]
  rw [dif_neg positive.ne']

theorem log2_add_lt_of_multiple {m : Nat} {e f : Int} (positive : 0 < m)
    (less : multiple m e < multiple 1 f) : m.log2 + (e + 1074).toNat < (f + 1074).toNat := by
  rw [← log2_shifted positive, Nat.log2_lt (by positivity)]
  simpa [multiple] using less

/-- A magnitude below the ceiling has its first binary place below the place 1024. -/
theorem log2_add_lt {m : Nat} {e : Int} (positive : 0 < m) (least : -1074 ≤ e)
    (below : multiple m e < ceiling) : m.log2 + e < 1024 := by
  have places := log2_add_lt_of_multiple (f := 1024) positive below
  omega

/-- A magnitude is written canonically when its 53 places are used, or its exponent is the least
one. -/
theorem canonical_of_log2 {s : Sign} {m : Nat} {e : Int} {positive : 0 < m} (least : -1074 ≤ e)
    (below : multiple m e < ceiling) (full : m.log2 = 52 ∨ e = -1074 ∧ m.log2 ≤ 52) :
    Canonical (.finite s m e positive) := by
  have places := log2_add_lt positive least below
  have upper := (@Nat.log2_lt m 53 positive.ne').mp (by omega)
  have lower := @Nat.le_log2 m 52 positive.ne'
  exact ⟨upper, least, by omega, by omega⟩

/-- Writing a magnitude with a smaller exponent does not change it. -/
theorem multiple_shifted (m n : Nat) {e : Int} (least : -1074 ≤ e - n) :
    multiple (m * 2 ^ n) (e - n) = multiple m e := by
  unfold multiple
  rw [mul_assoc, ← pow_add]
  congr 2
  omega

/-! ### Mantissas with a rest -/

/-- An extended mantissa stands for a fraction: its mantissa is the whole part, and one of its bits
is set exactly if there is a rest. -/
structure Describes (em : ExtendedMantissa) (num den : Nat) : Prop where
  whole : em.mantissa = num / den
  rest : (em.roundBit || em.stickyBit) = decide (num % den ≠ 0)

theorem describes_ofMantissaAndAccuracy (num den : Nat) :
    Describes (.ofMantissaAndAccuracy (num / den) (accuracyOfFraction (num % den) den))
      num den := by
  rw [accuracyOfFraction]
  split
  · next none => exact ⟨rfl, by rw [none]; rfl⟩
  · next some =>
    cases compare (2 * (num % den)) den <;> exact ⟨rfl, (decide_eq_true some).symm⟩

namespace Describes

variable {em : ExtendedMantissa} {num den : Nat}

/-- Shifting by one place halves the fraction. -/
theorem shiftRightOne (h : Describes em num den) (positive : 0 < den) :
    Describes em.shiftRightOne num (den * 2) := by
  refine ⟨?_, ?_⟩
  · rw [ExtendedMantissa.shiftRightOne, h.whole, Nat.div_div_eq_div_mul]
  · have halved : num % (den * 2) = num % den + den * (num / den % 2) := Nat.mod_mul
    change (em.mantissa % 2 != 0 || (em.roundBit || em.stickyBit)) = _
    rw [h.rest, h.whole, halved, Bool.eq_iff_iff]
    obtain even | odd := Nat.mod_two_eq_zero_or_one (num / den)
    · simp [even]
    · simp [odd, positive.ne']

/-- Shifting by some places divides the fraction by a power of two. -/
theorem shift (h : Describes em num den) (positive : 0 < den) (n : Nat) :
    Describes (n.repeat ExtendedMantissa.shiftRightOne em) num (den * 2 ^ n) := by
  induction n with
  | zero => simpa [Nat.repeat] using h
  | succ n ih =>
    rw [pow_succ, ← mul_assoc]
    exact ih.shiftRightOne (by positivity)

/-- Rounding adds at most one, and nothing if there is no rest. -/
theorem rounded_bounds (h : Describes em num den) : num / den ≤ em.roundedMantissa ∧
    em.roundedMantissa ≤ num / den + 1 ∧ (num % den = 0 → em.roundedMantissa = num / den) := by
  obtain ⟨whole, rest⟩ := h
  rw [← whole]
  obtain ⟨m, round, sticky⟩ := em
  simp only [ExtendedMantissa.roundedMantissa]
  cases round <;> cases sticky <;>
    simp_all [ExtendedMantissa.accuracy, Accuracy.roundToNearestEven]
  omega

/-- The rounded mantissa is on the same side of a whole number as the fraction, or equal to it. -/
theorem le_rounded (h : Describes em num den) (positive : 0 < den) {k : Nat} (low : k * den ≤ num) :
    k ≤ em.roundedMantissa :=
  ((Nat.le_div_iff_mul_le positive).mpr low).trans h.rounded_bounds.1

theorem rounded_le (h : Describes em num den) (positive : 0 < den) {k : Nat}
    (high : num ≤ k * den) : em.roundedMantissa ≤ k := by
  obtain ⟨-, above, exactly⟩ := h.rounded_bounds
  obtain none | some := Nat.eq_zero_or_pos (num % den)
  · rw [exactly none]
    exact Nat.div_le_of_le_mul (by rwa [mul_comm])
  · have split := Nat.div_add_mod num den
    have less : num / den < k := by
      rw [Nat.div_lt_iff_lt_mul positive]
      refine lt_of_le_of_ne high fun same => ?_
      rw [same, Nat.mul_mod_left] at some
      exact some.false
    exact above.trans less

end Describes

/-! ### Rounding a fraction -/

theorem shiftToTargetExponent_zero (E : Int) :
    (shiftToTargetExponent Format.binary64 0 E .exact).1.mantissa = 0 := by
  have shifted := fun n => repeat_shiftRightOne 0 n
  simp only [zero_mul] at shifted
  exact congrArg ExtendedMantissa.mantissa (shifted _)

/-- A mantissa of at most 53 places, or the power of two after them, is written canonically with
the same exponent or the next one. -/
theorem exists_canonical (s : Sign) {r : Nat} {E : Int} (positive : 0 < r) (least : -1074 ≤ E)
    (short : r ≤ 2 ^ 53) (full : 2 ^ 52 ≤ r ∨ E = -1074) (below : multiple r E < ceiling) :
    ∃ (M j : Nat) (first : 0 < M), M * 2 ^ j = r ∧ Canonical (.finite s M (E + j) first) := by
  obtain rfl | less := Nat.eq_or_lt_of_le short
  · have same : multiple (2 ^ 52) (E + 1) = multiple (2 ^ 53) E := by
      rw [multiple_succ _ least, multiple, multiple]
      ring
    exact ⟨2 ^ 52, 1, by decide, by decide,
      canonical_of_log2 (by push_cast; omega) (same ▸ below) (.inl Nat.log2_two_pow)⟩
  · have places : r.log2 ≤ 52 := log2_le_of_fits positive less
    refine ⟨r, 0, positive, by simp, ?_⟩
    rw [Nat.cast_zero, add_zero]
    refine canonical_of_log2 least below ?_
    obtain normal | subnormal := full
    · exact .inl (le_antisymm places ((Nat.le_log2 positive.ne').mpr normal))
    · exact .inr ⟨subnormal, places⟩

/-- A canonical triple that is a number, finite and of the given rank. -/
structure Stands (u : UnpackedFloat) (r : Int) : Prop where
  canonical : Canonical u
  finite : u.isFinite = true
  rank_eq : rankOf u = r

theorem apply_mul (s : Sign) (a b : Int) : s.apply (a * b) = s.apply a * b := by
  cases s <;> simp [Sign.apply]

/-- What is left of rounding once the mantissa is rounded: writing it canonically. -/
theorem stands_rounded (s : Sign) {m : Nat} {e E : Int} {a : Accuracy} {em : ExtendedMantissa}
    (first : shiftToTargetExponent Format.binary64 m e a = (em, E)) (least : -1074 ≤ E)
    (short : em.roundedMantissa ≤ 2 ^ 53) (full : 2 ^ 52 ≤ em.roundedMantissa ∨ E = -1074)
    (below : multiple em.roundedMantissa E < ceiling) :
    Stands (roundWithAccuracy Format.binary64 s m e a)
      (s.apply (multiple em.roundedMantissa E)) := by
  simp only [roundWithAccuracy, first]
  obtain zero | positive := Nat.eq_zero_or_pos em.roundedMantissa
  · rw [dif_pos (by rw [zero]; exact shiftToTargetExponent_zero E), zero]
    refine ⟨trivial, rfl, ?_⟩
    cases s <;> simp [rankOf, multiple, Sign.apply]
  · obtain ⟨M, j, hM, same, canonical⟩ := exists_canonical s positive least short full below
    have second := shiftToTargetExponent_shifted canonical j
    rw [same, add_sub_cancel_right] at second
    simp only [second]
    rw [dif_neg hM.ne']
    refine ⟨canonical, rfl, ?_⟩
    have shifted := multiple_shifted M j (e := E + j) (by omega)
    rw [same, add_sub_cancel_right] at shifted
    rw [rankOf, shifted]

/-- No rank of a double lies strictly between a finite triple and a fraction of ranks. -/
structure Near (u : UnpackedFloat) (num : Int) (den : Nat) : Prop where
  canonical : Canonical u
  finite : u.isFinite = true
  low (R : Int) : Fits R.natAbs → R * den ≤ num → R ≤ rankOf u
  high (R : Int) : Fits R.natAbs → num ≤ R * den → rankOf u ≤ R

namespace Near

variable {u : UnpackedFloat} {num num' : Int} {den den' : Nat}

/-- A fraction that is the rank of a double is met. -/
theorem rank_eq (h : Near u num den) {R : Int} (fits : Fits R.natAbs) (same : num = R * den) :
    rankOf u = R :=
  le_antisymm (h.high R fits same.le) (h.low R fits same.ge)

/-- Only the value of the fraction counts. -/
theorem congr (h : Near u num den) (positive : 0 < den) (positive' : 0 < den')
    (same : num * den' = num' * den) : Near u num' den' := by
  have cancel {a b : Int} : a * den ≤ b * den ↔ a ≤ b :=
    Int.mul_le_mul_right (by exact_mod_cast positive)
  have cancel' {a b : Int} : a * den' ≤ b * den' ↔ a ≤ b :=
    Int.mul_le_mul_right (by exact_mod_cast positive')
  refine ⟨h.canonical, h.finite, fun R fits le => h.low R fits ?_,
    fun R fits ge => h.high R fits ?_⟩
  · rw [← cancel', same, mul_right_comm, cancel]
    exact le
  · rw [← cancel', same, mul_right_comm R, cancel]
    exact ge

/-- It is enough to compare magnitudes. -/
theorem of_magnitude {s : Sign} {V num : Nat} (stands : Stands u (s.apply V)) (positive : 0 < den)
    (low : ∀ R, Fits R → R * den ≤ num → R ≤ V) (high : ∀ R, Fits R → num ≤ R * den → V ≤ R) :
    Near u (s.apply num) den := by
  obtain ⟨canonical, finite, rank_eq⟩ := stands
  have least (R : Int) (fits : Fits R.natAbs) (le : R * den ≤ num) : R ≤ V := by
    obtain ⟨k, rfl | rfl⟩ := R.eq_nat_or_neg
    · rw [Int.natAbs_natCast] at fits
      exact_mod_cast low k fits (by exact_mod_cast le)
    · omega
  have greatest (R : Int) (fits : Fits R.natAbs) (ge : num ≤ R * den) : V ≤ R := by
    have nonneg : 0 ≤ R := by
      rw [← Int.mul_le_mul_right (Int.natCast_pos.mpr positive), zero_mul]
      omega
    lift R to Nat using nonneg
    rw [Int.natAbs_natCast] at fits
    exact_mod_cast high R fits (by exact_mod_cast ge)
  cases s with
  | positive =>
    exact ⟨canonical, finite, fun R fits le => rank_eq ▸ least R fits le,
      fun R fits ge => rank_eq ▸ greatest R fits ge⟩
  | negative =>
    refine ⟨canonical, finite, fun R fits le => ?_, fun R fits ge => ?_⟩ <;>
      rw [rank_eq] <;> rw [← Int.natAbs_neg] at fits <;> rw [Sign.apply] at *
    · have := greatest (-R) fits (by rw [neg_mul]; omega)
      omega
    · have := least (-R) fits (by rw [neg_mul]; omega)
      omega

end Near

/-- A rank of a double is a multiple of a power of two, unless it is below `2 ^ 52` times this
power. -/
theorem lt_or_exists_mul_of_fits {R : Nat} (fits : Fits R) (k : Nat) :
    R < 2 ^ 52 * 2 ^ k ∨ ∃ j, R = j * 2 ^ k := by
  refine or_iff_not_imp_left.mpr fun large => ?_
  rw [not_lt, ← pow_add] at large
  have positive : 0 < R := lt_of_lt_of_le (by positivity) large
  have places := (Nat.le_log2 positive.ne').mpr large
  obtain ⟨j, hj⟩ := (Nat.pow_dvd_pow 2 (show k ≤ R.log2 - 52 by omega)).trans fits.2
  exact ⟨j, hj.trans (mul_comm _ _)⟩

section Units

variable {num den unit r R : Nat} (step : 0 < unit) (positive : 0 < den)
variable (grid : R < 2 ^ 52 * unit ∨ ∃ j, R = j * unit) (full : 2 ^ 52 * den ≤ num ∨ unit = 1)

include step in
theorem mul_unit_le_iff {j : Nat} : j * unit * den ≤ num * unit ↔ j * den ≤ num := by
  rw [mul_right_comm, Nat.mul_le_mul_right_iff step]

include step in
theorem le_mul_unit_iff {j : Nat} : num * unit ≤ j * unit * den ↔ num ≤ j * den := by
  rw [mul_right_comm, Nat.mul_le_mul_right_iff step]

include step grid full in
/-- A number on the grid that is at most a fraction is at most the fraction in whole units. -/
theorem le_units (low : ∀ j, j * den ≤ num → j ≤ r) (le : R * den ≤ num * unit) :
    R ≤ r * unit := by
  obtain normal | rfl := full
  · obtain small | ⟨j, rfl⟩ := grid
    · exact small.le.trans (Nat.mul_le_mul_right _ (low _ normal))
    · exact Nat.mul_le_mul_right _ (low j ((mul_unit_le_iff step).mp le))
  · rw [mul_one] at le ⊢
    exact low R le

include step positive grid full in
/-- A number on the grid that is at least a fraction is at least the fraction in whole units. -/
theorem units_le (high : ∀ j, num ≤ j * den → r ≤ j) (ge : num * unit ≤ R * den) :
    r * unit ≤ R := by
  obtain normal | rfl := full
  · obtain small | ⟨j, rfl⟩ := grid
    · have below : R * den < num * unit :=
        calc R * den
          _ < 2 ^ 52 * unit * den := Nat.mul_lt_mul_of_pos_right small positive
          _ ≤ num * unit := (mul_unit_le_iff step).mpr normal
      exact absurd ge below.not_ge
    · exact Nat.mul_le_mul_right _ (high j ((le_mul_unit_iff step).mp ge))
  · rw [mul_one] at ge ⊢
    exact high R ge

end Units

/-- At the exponent that rounding aims at, a fraction has at most 53 places, and all of them unless
the exponent is the least one. -/
theorem fraction_bounds {num den n : Nat} {e E : Int} (positive : 0 < den)
    (target : E = max ((num / den).log2 + e - 52) (-1074)) (shift : E = e + n) :
    num ≤ 2 ^ 53 * (den * 2 ^ n) ∧ (2 ^ 52 * (den * 2 ^ n) ≤ num ∨ E = -1074) := by
  constructor
  · have places : (num / den).log2 + 1 ≤ 53 + n := by omega
    have floor : num / den < 2 ^ (53 + n) :=
      Nat.lt_log2_self.trans_le (Nat.pow_le_pow_right (by decide) places)
    rw [pow_add, Nat.div_lt_iff_lt_mul positive] at floor
    exact floor.le.trans_eq (by ring)
  · refine or_iff_not_imp_right.mpr fun normal => ?_
    have places : (num / den).log2 = 52 + n := by omega
    have nonzero : num / den ≠ 0 := fun zero => by
      rw [zero, Nat.log2_zero] at places
      omega
    have floor := Nat.log2_self_le nonzero
    rw [places, pow_add, Nat.le_div_iff_mul_le positive] at floor
    exact le_trans (by rw [mul_comm den, mul_assoc]) floor

/-- Rounding a fraction of mantissas gives a triple next to the fraction of ranks, as long as a
double bounds it. -/
theorem near_roundWithAccuracy (s : Sign) {num den a b B n : Nat} {e E : Int} (positive : 0 < den)
    (positive_b : 0 < b) (target : E = max ((num / den).log2 + e - 52) (-1074)) (shift : E = e + n)
    (same : a * (den * 2 ^ n) = num * 2 ^ (E + 1074).toNat * b) (fits : Fits B)
    (bound : a ≤ B * b) :
    Near (roundWithAccuracy Format.binary64 s (num / den) e (accuracyOfFraction (num % den) den))
      (s.apply a) b := by
  have positive' : 0 < den * 2 ^ n := by positivity
  have shift' : (E - e).toNat = n := by omega
  let em := n.repeat ExtendedMantissa.shiftRightOne
    (.ofMantissaAndAccuracy (num / den) (accuracyOfFraction (num % den) den))
  have describes : Describes em num (den * 2 ^ n) :=
    (describes_ofMantissaAndAccuracy num den).shift positive n
  have first : shiftToTargetExponent Format.binary64 (num / den) e
      (accuracyOfFraction (num % den) den) = (em, E) := by
    simp only [shiftToTargetExponent, targetExponent_eq, ← target, shiftToExponent, shift']
    exact Prod.ext rfl shift.symm
  obtain ⟨short, full⟩ := fraction_bounds positive target shift
  set r := em.roundedMantissa
  have step : 0 < 2 ^ (E + 1074).toNat := by positivity
  have grid (R : Nat) (fits : Fits R) := lt_or_exists_mul_of_fits fits (E + 1074).toNat
  have full' : 2 ^ 52 * (den * 2 ^ n) ≤ num ∨ 2 ^ (E + 1074).toNat = 1 :=
    full.imp_right fun least => by rw [least]; rfl
  have low (R : Nat) (fits : Fits R) := le_units step (grid R fits) full'
    fun j => describes.le_rounded positive'
  have high (R : Nat) (fits : Fits R) := units_le step positive' (grid R fits) full'
    fun j => describes.rounded_le positive'
  have bound' : num * 2 ^ (E + 1074).toNat ≤ B * (den * 2 ^ n) := by
    rw [← Nat.mul_le_mul_right_iff positive_b, ← same, mul_right_comm B]
    exact Nat.mul_le_mul_right _ bound
  have below : multiple r E < ceiling := (high B fits bound').trans_lt fits.1
  have near : Near _ (s.apply (num * 2 ^ (E + 1074).toNat : Nat)) (den * 2 ^ n) :=
    .of_magnitude (stands_rounded s first (by omega) (describes.rounded_le positive' short)
      (full.imp_left (describes.le_rounded positive')) below) positive' low high
  refine near.congr positive' positive_b ?_
  rw [← apply_mul, ← apply_mul]
  exact_mod_cast congrArg (fun n : Nat => s.apply n) same.symm

/-- The same for a whole mantissa, nothing of which is left behind. -/
theorem near_roundWithAccuracy_exact (s : Sign) {m a b B n : Nat} {e E : Int} (positive : 0 < b)
    (target : E = max (m.log2 + e - 52) (-1074)) (shift : E = e + n)
    (same : a * 2 ^ n = m * 2 ^ (E + 1074).toNat * b) (fits : Fits B) (bound : a ≤ B * b) :
    Near (roundWithAccuracy Format.binary64 s m e .exact) (s.apply a) b := by
  have whole : E = max ((m / 1).log2 + e - 52) (-1074) := by rwa [Nat.div_one]
  have near :=
    near_roundWithAccuracy s Nat.one_pos positive whole shift (by rwa [one_mul]) fits bound
  rwa [Nat.div_one, Nat.mod_one] at near

/-! ### Sums and differences -/

namespace Stands

variable {u : UnpackedFloat} {a : Int}

/-- A rank that is met is its own neighbour. -/
theorem near (h : Stands u a) : Near u a 1 := by
  refine ⟨h.canonical, h.finite, fun R _ le => ?_, fun R _ ge => ?_⟩
  · rwa [Nat.cast_one, mul_one, ← h.rank_eq] at le
  · rwa [Nat.cast_one, mul_one, ← h.rank_eq] at ge

end Stands

/-- The neighbour of a rank that fits meets it. -/
theorem Near.stands {u : UnpackedFloat} {a : Int} (h : Near u a 1) (fits : Fits a.natAbs) :
    Stands u a :=
  ⟨h.canonical, h.finite, h.rank_eq fits (by rw [Nat.cast_one, mul_one])⟩

theorem natAbs_multiple (m e : Int) :
    (m * 2 ^ (e + 1074).toNat).natAbs = multiple m.natAbs e := by
  simp [multiple, Int.natAbs_mul, Int.natAbs_pow]

theorem near_round (s : Sign) {m B : Nat} {e : Int} (least : -1074 ≤ e) (positive : 0 < m)
    (fits : Fits B) (bound : multiple m e ≤ B) :
    Near (UnpackedFloat.round Format.binary64 s m e) (s.apply (multiple m e)) 1 := by
  simp only [UnpackedFloat.round, targetExponent_eq, decreaseExponent, Nat.shiftLeft_eq]
  set E := max (m.log2 + e - 52) (-1074) with hE
  refine near_roundWithAccuracy_exact s Nat.one_pos (n := (E - e).toNat) (E := E) ?_ (by omega) ?_
    fits (by rwa [mul_one])
  · rw [log2_shifted positive]
    omega
  · have places : (e + 1074).toNat + (E - e).toNat = (e - E).toNat + (E + 1074).toNat := by omega
    rw [multiple, mul_one, mul_assoc, mul_assoc, ← pow_add, ← pow_add, places]

theorem near_normalize {m e : Int} (zero : Sign) (least : -1074 ≤ e) {B : Nat} (fits : Fits B)
    (bound : (m * 2 ^ (e + 1074).toNat).natAbs ≤ B) :
    Near (UnpackedFloat.normalize Format.binary64 m e zero) (m * 2 ^ (e + 1074).toNat) 1 := by
  rw [natAbs_multiple] at bound
  unfold UnpackedFloat.normalize
  obtain less | rfl | greater := lt_trichotomy m 0
  · rw [compare_lt_iff_lt.mpr less]
    obtain ⟨n, rfl⟩ := Int.exists_eq_neg_ofNat less.le
    rw [Int.natAbs_neg, Int.natAbs_natCast] at bound
    have near := near_round .negative least (m := n) (by omega) fits bound
    simpa [Sign.apply, multiple] using near
  · rw [compare_eq_iff_eq.mpr rfl, zero_mul]
    exact Stands.near ⟨trivial, rfl, rfl⟩
  · rw [compare_gt_iff_gt.mpr greater]
    obtain ⟨n, rfl⟩ := Int.eq_ofNat_of_zero_le greater.le
    rw [Int.natAbs_natCast] at bound
    have near := near_round .positive least (m := n) (by omega) fits bound
    simpa [Sign.apply, multiple] using near

/-- The rank of a finite triple, from its mantissa written with a smaller exponent. -/
theorem apply_lowered (s : Sign) (m : Nat) {e f : Int} (least : -1074 ≤ f) (lower : f ≤ e) :
    s.apply ((m <<< (e - f).toNat : Nat) : Int) * 2 ^ (f + 1074).toNat =
      s.apply (multiple m e) := by
  have places : (e + 1074).toNat = (e - f).toNat + (f + 1074).toNat := by omega
  rw [← apply_mul, multiple, Nat.shiftLeft_eq, places, pow_add]
  congr 1
  push_cast
  ring

/-- A sum that a double bounds is next to the exact one. -/
theorem near_add {u v : UnpackedFloat} {a b : Int} (hu : Stands u a) (hv : Stands v b) {B : Nat}
    (fits : Fits B) (bound : (a + b).natAbs ≤ B) :
    Near (UnpackedFloat.add Format.binary64 u v) (a + b) 1 := by
  obtain ⟨canonical, finite, rfl⟩ := hu
  obtain ⟨canonical', finite', rfl⟩ := hv
  cases u with
  | notANumber => cases finite
  | infinity s => cases finite
  | zero s =>
    cases v with
    | notANumber => cases finite'
    | infinity t => cases finite'
    | zero t => cases s <;> cases t <;> exact Stands.near ⟨trivial, rfl, rfl⟩
    | finite t n f hn =>
      exact Stands.near ⟨canonical', rfl, by simp [rankOf, UnpackedFloat.add]⟩
  | finite s m e hm =>
    cases v with
    | notANumber => cases finite'
    | infinity t => cases finite'
    | zero t => exact Stands.near ⟨canonical, rfl, by simp [rankOf, UnpackedFloat.add]⟩
    | finite t n f hn =>
      have least : -1074 ≤ min e f := le_min canonical.2.1 canonical'.2.1
      simp only [rankOf] at bound ⊢
      rw [← apply_lowered s m least (min_le_left e f),
        ← apply_lowered t n least (min_le_right e f), ← add_mul] at bound ⊢
      exact near_normalize .positive least fits bound

theorem stands_neg {u : UnpackedFloat} {a : Int} (hu : Stands u a) : Stands u.neg (-a) := by
  obtain ⟨canonical, finite, rfl⟩ := hu
  cases u with
  | notANumber => cases finite
  | infinity s => cases finite
  | zero s => exact ⟨trivial, rfl, rfl⟩
  | finite s m e hm =>
    exact ⟨canonical, rfl, by cases s <;> simp [rankOf, UnpackedFloat.neg, Sign.apply]⟩

theorem apply_neg (s : Sign) (n : Int) : (-s).apply n = -s.apply n := by
  cases s
  · exact (neg_neg n).symm
  · rfl

/-- Subtracting is adding the negation, for the signs of zeros and infinities as well. -/
theorem sub_eq_add_neg (u v : UnpackedFloat) :
    UnpackedFloat.sub Format.binary64 u v = UnpackedFloat.add Format.binary64 u v.neg := by
  cases u with
  | finite s m e hm =>
    cases v with
    | finite t n f hn =>
      simp only [UnpackedFloat.sub, UnpackedFloat.add, UnpackedFloat.neg, apply_neg,
        Int.sub_eq_add_neg]
    | _ => rfl
  | _ => cases v <;> rfl

/-- A difference that a double bounds is next to the exact one. -/
theorem near_sub {u v : UnpackedFloat} {a b : Int} (hu : Stands u a) (hv : Stands v b) {B : Nat}
    (fits : Fits B) (bound : (a - b).natAbs ≤ B) :
    Near (UnpackedFloat.sub Format.binary64 u v) (a - b) 1 := by
  rw [sub_eq_add_neg]
  exact near_add hu (stands_neg hv) fits bound

/-! ### Scaling by a power of two -/

theorem natAbs_rankOf (s : Sign) (m : Nat) (e : Int) (positive : 0 < m) :
    (rankOf (.finite s m e positive)).natAbs = multiple m e := by
  cases s <;> simp [rankOf, Sign.apply]

theorem near_zero (s t : Sign) (n : Nat) {den : Nat} (positive : 0 < den) :
    Near (.zero s) (rankOf (.zero t) * n) den := by
  have zero : Stands (.zero s) 0 := ⟨trivial, rfl, rfl⟩
  exact zero.near.congr Nat.one_pos positive (by simp only [rankOf, zero_mul])

theorem mul_positive (s : Sign) : s * .positive = s := by
  cases s <;> rfl

theorem div_positive (s : Sign) : s / .positive = s := by
  cases s <;> rfl

section Scaling

variable {u : UnpackedFloat} {a : Int} (hu : Stands u a) {k : Int} (least : -1022 ≤ k)
variable {B : Nat} (fits : Fits B)

include hu least fits

/-- A product with a power of two that a double bounds is next to the exact one. -/
theorem near_mul_powerOfTwo (bound : a.natAbs * multiple 1 k ≤ B * multiple 1 0) :
    Near (UnpackedFloat.mul Format.binary64 u (.finite .positive (2 ^ 52) (k - 52) (by decide)))
      (a * multiple 1 k) (multiple 1 0) := by
  obtain ⟨canonical, finite, rfl⟩ := hu
  cases u with
  | notANumber => cases finite
  | infinity s => cases finite
  | zero s => exact near_zero _ s _ (multiple_pos Nat.one_pos)
  | finite s m e positive =>
    have places := canonical.2.1
    rw [natAbs_rankOf] at bound
    rw [rankOf, ← apply_mul, ← Nat.cast_mul]
    simp only [UnpackedFloat.mul, mul_positive]
    set E := max (m.log2 + e + k - 52) (-1074) with hE
    refine near_roundWithAccuracy_exact s (multiple_pos Nat.one_pos) (E := E)
      (n := (E - (e + (k - 52))).toNat) ?_ (by omega) ?_ fits bound
    · rw [log2_shifted positive]
      omega
    · simp only [multiple, one_mul]
      rw [mul_assoc, mul_assoc, mul_assoc, mul_assoc, ← pow_add, ← pow_add, ← pow_add, ← pow_add]
      congr 2
      omega

/-- A quotient by a power of two that a double bounds is next to the exact one. -/
theorem near_div_powerOfTwo (bound : a.natAbs * multiple 1 0 ≤ B * multiple 1 k) :
    Near (UnpackedFloat.div Format.binary64 u (.finite .positive (2 ^ 52) (k - 52) (by decide)))
      (a * multiple 1 0) (multiple 1 k) := by
  obtain ⟨canonical, finite, rfl⟩ := hu
  cases u with
  | notANumber => cases finite
  | infinity s => cases finite
  | zero s => exact near_zero _ s _ (multiple_pos Nat.one_pos)
  | finite s m e positive =>
    have places := canonical.2.1
    rw [natAbs_rankOf] at bound
    rw [rankOf, ← apply_mul, ← Nat.cast_mul]
    have target : Format.binary64.targetExponent
        (totalExponent m e - totalExponent (2 ^ 52) (k - 52)) =
          max (m.log2 + e - k - 53) (-1074) := by
      change max (m.log2 + 1 + e - (52 + 1 + (k - 52)) - 53) (-1074) = _
      congr 1
      omega
    simp only [UnpackedFloat.div, div_positive, divCore, target, Nat.shiftLeft_eq]
    set T := min (e - (k - 52)) (max (m.log2 + e - k - 53) (-1074)) with hT
    set shift := (e - (k - 52) - T).toNat with hshift
    set E := max ((m * 2 ^ shift / 2 ^ 52).log2 + T - 52) (-1074) with hE
    -- the quotient has all the places that are kept, unless the exponent is the least one
    have enough : T ≤ E := by
      obtain low | high := le_or_gt T (-1074)
      · omega
      · have large : 2 ^ 53 ≤ m * 2 ^ shift / 2 ^ 52 := by
          rw [Nat.le_div_iff_mul_le (by positivity), ← pow_add]
          calc 2 ^ (53 + 52)
            _ ≤ 2 ^ (m.log2 + shift) := Nat.pow_le_pow_right (by decide) (by omega)
            _ ≤ m * 2 ^ shift := by
              rw [pow_add]
              exact Nat.mul_le_mul_right _ (Nat.log2_self_le positive.ne')
        have := (Nat.le_log2 (by omega)).mpr large
        omega
    refine near_roundWithAccuracy s (by positivity) (multiple_pos Nat.one_pos) hE
      (n := (E - T).toNat) (by omega) ?_ fits bound
    simp only [multiple, one_mul]
    rw [mul_assoc, mul_assoc, mul_assoc, mul_assoc, ← pow_add, ← pow_add, ← pow_add, ← pow_add,
      ← pow_add]
    congr 2
    omega

end Scaling

end Grid

end RailAtlas
