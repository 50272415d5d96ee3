import Mathlib

/-!
# Doubles on a grid

Every finite double is a whole multiple of the least positive one. Its `rank` is this multiple, and
the infinities take the ranks at which the next power of two would stand. So the order of doubles
is the order of whole numbers, and that an operation is exact can be said without fractions.

Doubles are unpacked into a sign, a mantissa and an exponent. `Canonical` says which of these
triples an encoding can give: at most 53 binary places, and all of them used unless the exponent is
the least one. Packing a canonical triple and unpacking it again changes nothing, so what is proved
about triples is true of doubles.
-/

namespace RailAtlas

namespace Grid

open Float.Model
open Float.Model.UnpackedFloat

/-- How many times the least positive double goes into `m * 2 ^ e`. -/
def multiple (m : Nat) (e : Int) : Nat :=
  m * 2 ^ (e + 1074).toNat

/-- The rank of the positive infinity, which is above that of every finite double. -/
def ceiling : Nat :=
  multiple 1 1024

/-- The place of an unpacked double on the grid. -/
def rankOf : UnpackedFloat → Int
  | .notANumber | .zero _ => 0
  | .finite s m e _ => s.apply (multiple m e)
  | .infinity s => s.apply ceiling

/-- What an encoding can give: at most 53 places, all of them used above the least exponent. -/
def Canonical : UnpackedFloat → Prop
  | .finite _ m e _ => m < 2 ^ 53 ∧ -1074 ≤ e ∧ e ≤ 971 ∧ (2 ^ 52 ≤ m ∨ e = -1074)
  | _ => True

/-! ### Packing -/

theorem toNat_one_append (m : BitVec 52) : (1#1 ++ m).toNat = 2 ^ 52 + m.toNat := by
  rw [BitVec.toNat_append, ← Nat.shiftLeft_add_eq_or_of_lt m.isLt]
  simp [Nat.shiftLeft_eq]

theorem bias_eq : (Format.binary64.exponentBias : Int) = 1023 := rfl

/-- Every encoding unpacks to a canonical triple. -/
theorem canonical_unpack (b : BitVec 64) : Canonical (UnpackedFloat.unpack Format.binary64 b) := by
  have fraction : (@unpackMantissa Format.binary64 b).toNat < 2 ^ 52 :=
    BitVec.isLt _
  have field : (@unpackExponent Format.binary64 b).toNat < 2 ^ 11 :=
    BitVec.isLt _
  unfold UnpackedFloat.unpack
  simp only [bias_eq]
  split
  · split <;> trivial
  · next bounded =>
    simp only [BitVec.toNat_eq, BitVec.reduceNeg, BitVec.reduceToNat] at bounded
    split
    · next least =>
      rw [least]
      split
      · trivial
      · exact ⟨by omega, by decide, by decide, .inr (by decide)⟩
    · next normal =>
      simp only [BitVec.toNat_eq, BitVec.reduceToNat] at normal
      have mantissa := toNat_one_append (@unpackMantissa Format.binary64 b)
      refine ⟨by omega, ?_, ?_, .inl (by omega)⟩ <;> push_cast <;> omega

theorem unpackSign_packComponents (s : Sign) (e : BitVec 11) (m : BitVec 52) :
    unpackSign (packComponents Format.binary64 s e m) = s.toBitVec := by
  apply BitVec.eq_of_getLsbD_eq
  intro i hi
  obtain rfl : i = 0 := by omega
  have last : (s.toBitVec ++ e ++ m).getLsbD 63 = s.toBitVec.getLsbD 0 := by
    rw [BitVec.getLsbD_append, BitVec.getLsbD_append]
    rfl
  rw [← last]
  simp only [unpackSign, packComponents, BitVec.getLsbD_cast, BitVec.getLsbD_extract]
  rfl

theorem ofBitVec_toBitVec (s : Sign) : Sign.ofBitVec s.toBitVec = s := by
  cases s <;> rfl

/-- The encoding of a finite double with its exponent field `k`. -/
theorem pack_finite {s : Sign} {m k : Nat} {e : Int} {positive : 0 < m} (fits : m < 2 ^ 53)
    (hk : (k : Int) = e + 1075) (field : k < 2047) :
    UnpackedFloat.pack Format.binary64 (.finite s m e positive) =
      packComponents Format.binary64 s (if 2 ^ 52 ≤ m then BitVec.ofNat 11 k else 0)
        (BitVec.ofNat 52 m) := by
  have places : m.log2 + 1 = Format.binary64.mantissaBits ↔ 2 ^ 52 ≤ m := by
    have lower := @Nat.le_log2 m 52 (by omega)
    have upper := @Nat.log2_lt m 53 (by omega)
    change m.log2 + 1 = 53 ↔ 2 ^ 52 ≤ m
    omega
  have biased : (e + Format.binary64.exponentBias + (52 : Nat)).toNat = k := by
    rw [bias_eq]
    omega
  have in_range : ¬ 2 ^ 11 ≤ k + 1 := by omega
  simp only [UnpackedFloat.pack, biased, if_neg in_range, places]
  split <;> rfl

/-- Packing a canonical triple and unpacking it again changes nothing. -/
theorem unpack_pack {u : UnpackedFloat} (h : Canonical u) :
    UnpackedFloat.unpack Format.binary64 (UnpackedFloat.pack Format.binary64 u) = u := by
  cases u with
  | notANumber => rfl
  | infinity s => cases s <;> rfl
  | zero s => cases s <;> rfl
  | finite s m e positive =>
    obtain ⟨fits, least, greatest, full⟩ := h
    obtain ⟨k, hk⟩ := Int.eq_ofNat_of_zero_le (show 0 ≤ e + 1075 by omega)
    have field : k < 2047 := by omega
    have exponent : (BitVec.ofNat 11 k).toNat = k := by
      rw [BitVec.toNat_ofNat, Nat.mod_eq_of_lt (by omega)]
    have distinct : ∀ n, n < 2048 → n ≠ k → BitVec.ofNat 11 k ≠ BitVec.ofNat 11 n := by
      intro n hn other same
      have := congrArg BitVec.toNat same
      rw [exponent, BitVec.toNat_ofNat, Nat.mod_eq_of_lt hn] at this
      exact other this.symm
    rw [pack_finite fits hk.symm field]
    simp only [UnpackedFloat.unpack, unpackMantissa_packComponents, unpackExponent_packComponents,
      unpackSign_packComponents, ofBitVec_toBitVec, bias_eq]
    by_cases normal : 2 ^ 52 ≤ m
    · have fraction : (1#1 ++ BitVec.ofNat 52 m).toNat = m := by
        rw [toNat_one_append, BitVec.toNat_ofNat]
        omega
      have not_last : BitVec.ofNat 11 k ≠ -1#11 := distinct 2047 (by omega) (by omega)
      have not_first : BitVec.ofNat 11 k ≠ 0#11 := distinct 0 (by omega) (by omega)
      simp only [if_pos normal, not_last, not_first, if_false, fraction, exponent]
      congr 1
      push_cast
      omega
    · have fraction : (BitVec.ofNat 52 m).toNat = m := by
        rw [BitVec.toNat_ofNat, Nat.mod_eq_of_lt (by omega)]
      have nonzero : BitVec.ofNat 52 m ≠ 0#52 := by
        intro zero
        have none : (BitVec.ofNat 52 m).toNat = 0 := by
          rw [zero]
          rfl
        omega
      have first : (0 : BitVec 11) ≠ -1#11 := by decide
      simp only [if_neg normal, first, if_false, nonzero, dif_neg, not_false_eq_true,
        fraction]
      rw [full.resolve_left normal]
      rfl

/-! ### Order -/

theorem multiple_succ (m : Nat) {e : Int} (least : -1074 ≤ e) :
    multiple m (e + 1) = 2 * multiple m e := by
  have next : (e + 1 + 1074).toNat = (e + 1074).toNat + 1 := by omega
  rw [multiple, multiple, next]
  ring

theorem multiple_add (m n : Nat) {e : Int} (least : -1074 ≤ e) :
    multiple m (e + n) = 2 ^ n * multiple m e := by
  have places : (e + n + 1074).toNat = (e + 1074).toNat + n := by omega
  rw [multiple, multiple, places]
  ring

theorem multiple_lt {m : Nat} {e : Int} (fits : m < 2 ^ 53) (greatest : e ≤ 971) :
    multiple m e < ceiling :=
  calc multiple m e
    _ < 2 ^ 53 * 2 ^ (e + 1074).toNat := Nat.mul_lt_mul_of_pos_right fits (by positivity)
    _ = 1 * 2 ^ (53 + (e + 1074).toNat) := by rw [one_mul, pow_add]
    _ ≤ ceiling := Nat.mul_le_mul_left _ (Nat.pow_le_pow_right (by decide) (by omega))

/-- A canonical triple with the greater exponent is the greater multiple. -/
theorem multiple_lt_of_exponent {m n : Nat} {e f : Int} (fits : m < 2 ^ 53) (least : -1074 ≤ e)
    (less : e < f) (full : 2 ^ 52 ≤ n ∨ f = -1074) : multiple m e < multiple n f :=
  calc multiple m e
    _ < 2 ^ 53 * 2 ^ (e + 1074).toNat := Nat.mul_lt_mul_of_pos_right fits (by positivity)
    _ = 2 ^ 52 * 2 ^ ((e + 1074).toNat + 1) := by ring
    _ ≤ 2 ^ 52 * 2 ^ (f + 1074).toNat :=
      Nat.mul_le_mul_left _ (Nat.pow_le_pow_right (by decide) (by omega))
    _ ≤ multiple n f := Nat.mul_le_mul_right _ (by omega)

/-- Canonical magnitudes compare as multiples do: the exponents decide, then the mantissas. -/
theorem compare_multiple {m n : Nat} {e f : Int} (hm : m < 2 ^ 53) (hn : n < 2 ^ 53)
    (he : -1074 ≤ e) (hf : -1074 ≤ f) (hme : 2 ^ 52 ≤ m ∨ e = -1074)
    (hnf : 2 ^ 52 ≤ n ∨ f = -1074) :
    (compare e f).then (compare m n) = compare (multiple m e) (multiple n f) := by
  obtain less | rfl | greater := lt_trichotomy e f
  · rw [compare_lt_iff_lt.mpr less,
      compare_lt_iff_lt.mpr (multiple_lt_of_exponent hm he less hnf)]
    rfl
  · have positive : 0 < 2 ^ (e + 1074).toNat := by positivity
    rw [compare_eq_iff_eq.mpr rfl]
    change compare m n = compare (m * 2 ^ (e + 1074).toNat) (n * 2 ^ (e + 1074).toNat)
    obtain less | rfl | greater := lt_trichotomy m n
    · rw [compare_lt_iff_lt.mpr less,
        compare_lt_iff_lt.mpr (Nat.mul_lt_mul_of_pos_right less positive)]
    · rw [compare_eq_iff_eq.mpr rfl, compare_eq_iff_eq.mpr rfl]
    · rw [compare_gt_iff_gt.mpr greater,
        compare_gt_iff_gt.mpr (Nat.mul_lt_mul_of_pos_right greater positive)]
  · rw [compare_gt_iff_gt.mpr greater,
      compare_gt_iff_gt.mpr (multiple_lt_of_exponent hn hf greater hme)]
    rfl

theorem compare_natCast (a b : Nat) : compare (a : Int) (b : Int) = compare a b := by
  obtain less | rfl | greater := lt_trichotomy a b
  · rw [compare_lt_iff_lt.mpr less, compare_lt_iff_lt.mpr (Int.ofNat_lt.mpr less)]
  · rw [compare_eq_iff_eq.mpr rfl, compare_eq_iff_eq.mpr rfl]
  · rw [compare_gt_iff_gt.mpr greater, compare_gt_iff_gt.mpr (Int.ofNat_lt.mpr greater)]

theorem compare_neg (a b : Int) : compare (-a) (-b) = (compare a b).swap := by
  obtain less | rfl | greater := lt_trichotomy a b
  · rw [compare_lt_iff_lt.mpr less, compare_gt_iff_gt.mpr (neg_lt_neg less)]
    rfl
  · rw [compare_eq_iff_eq.mpr rfl, compare_eq_iff_eq.mpr rfl]
    rfl
  · rw [compare_gt_iff_gt.mpr greater, compare_lt_iff_lt.mpr (neg_lt_neg greater)]
    rfl

theorem multiple_pos {m : Nat} {e : Int} (positive : 0 < m) : 0 < multiple m e :=
  Nat.mul_pos positive (by positivity)

theorem ceiling_pos : 0 < ceiling :=
  multiple_pos (by decide)

theorem below {a b : Int} (h : a < b) : some Ordering.lt = some (compare a b) :=
  congrArg some (compare_lt_iff_lt.mpr h).symm

theorem above {a b : Int} (h : b < a) : some Ordering.gt = some (compare a b) :=
  congrArg some (compare_gt_iff_gt.mpr h).symm

theorem magnitude_bounds {s : Sign} {m : Nat} {e : Int} {positive : 0 < m}
    (h : Canonical (.finite s m e positive)) : 0 < multiple m e ∧ multiple m e < ceiling :=
  ⟨multiple_pos positive, multiple_lt h.1 h.2.2.1⟩

/-- Finite triples compare as their ranks do: where the signs agree the magnitudes decide. -/
theorem compare_finite {s t : Sign} {m n : Nat} {e f : Int} {hm : 0 < m} {hn : 0 < n}
    (hu : Canonical (.finite s m e hm)) (hv : Canonical (.finite t n f hn)) :
    (UnpackedFloat.finite s m e hm).compare (.finite t n f hn) =
      some (compare (s.apply (multiple m e)) (t.apply (multiple n f))) := by
  have first := magnitude_bounds hu
  have second := magnitude_bounds hv
  have same := compare_multiple hu.1 hv.1 hu.2.1 hv.2.1 hu.2.2.2 hv.2.2.2
  cases s <;> cases t
  · simp only [UnpackedFloat.compare, Sign.apply, same, compare_neg, compare_natCast]
  · exact below (by simp only [Sign.apply]; omega)
  · exact above (by simp only [Sign.apply]; omega)
  · simp only [UnpackedFloat.compare, Sign.apply, same, compare_natCast]

/-- What is finite lies strictly between the infinities. -/
theorem rankOf_finite_bounds {s : Sign} {m : Nat} {e : Int} {positive : 0 < m}
    (h : Canonical (.finite s m e positive)) :
    rankOf (.infinity .negative) < rankOf (.finite s m e positive) ∧
      rankOf (.finite s m e positive) < rankOf (.infinity .positive) := by
  have bounds := magnitude_bounds h
  cases s <;> simp only [rankOf, Sign.apply] <;> omega

/-- Canonical triples that are numbers compare as their ranks do. -/
theorem compare_rankOf {u v : UnpackedFloat} (hu : Canonical u) (hv : Canonical v)
    (nu : u.isNaN = false) (nv : v.isNaN = false) :
    u.compare v = some (compare (rankOf u) (rankOf v)) := by
  have last : (0 : Int) < ceiling := Int.natCast_pos.mpr ceiling_pos
  have least : (-ceiling : Int) < 0 := neg_neg_of_pos last
  cases u with
  | notANumber => cases nu
  | infinity s =>
    cases v with
    | notANumber => cases nv
    | infinity t =>
      cases s <;> cases t
      · exact congrArg some (compare_eq_iff_eq.mpr rfl).symm
      · exact below (least.trans last)
      · exact above (least.trans last)
      · exact congrArg some (compare_eq_iff_eq.mpr rfl).symm
    | zero t =>
      cases s with
      | negative => exact below least
      | positive => exact above last
    | finite t n f hn =>
      cases s with
      | negative => exact below (rankOf_finite_bounds hv).1
      | positive => exact above (rankOf_finite_bounds hv).2
  | zero s =>
    cases v with
    | notANumber => cases nv
    | infinity t =>
      cases t with
      | negative => exact above least
      | positive => exact below last
    | zero t => rfl
    | finite t n f hn =>
      have bounds : (0 : Int) < multiple n f := Int.natCast_pos.mpr (magnitude_bounds hv).1
      cases t with
      | negative => exact above (neg_neg_of_pos bounds)
      | positive => exact below bounds
  | finite s m e hm =>
    cases v with
    | notANumber => cases nv
    | infinity t =>
      cases t with
      | negative => exact above (rankOf_finite_bounds hu).1
      | positive => exact below (rankOf_finite_bounds hu).2
    | zero t =>
      have bounds : (0 : Int) < multiple m e := Int.natCast_pos.mpr (magnitude_bounds hu).1
      cases s with
      | negative => exact below (neg_neg_of_pos bounds)
      | positive => exact above bounds
    | finite t n f hn => exact compare_finite hu hv

/-! ### Doubles -/

/-- The place of a double on the grid. -/
def rank (x : Float) : Int :=
  rankOf x.toModel.unpack

theorem compare_of_isNaN {u v : UnpackedFloat} (h : u.isNaN = true ∨ v.isNaN = true) :
    u.compare v = none := by
  cases u <;> cases v <;> first | rfl | simp [UnpackedFloat.isNaN] at h

theorem compare_eq (x y : Float) :
    x.toModel.unpack.compare y.toModel.unpack =
      if x.isNaN = false ∧ y.isNaN = false then some (compare (rank x) (rank y)) else none := by
  split
  · next numbers =>
    exact compare_rankOf (canonical_unpack _) (canonical_unpack _) numbers.1 numbers.2
  · next other =>
    refine compare_of_isNaN ?_
    change x.isNaN = true ∨ y.isNaN = true
    grind

/-- The order of doubles is that of their ranks, and what is no number is below nothing. -/
theorem le_iff {x y : Float} :
    x ≤ y ↔ x.isNaN = false ∧ y.isNaN = false ∧ rank x ≤ rank y := by
  have unfolded : x ≤ y ↔ (x.toModel.unpack.compare y.toModel.unpack).any (·.isLE) = true :=
    decide_eq_true_iff
  rw [unfolded, compare_eq, ← and_assoc]
  split
  · next numbers =>
    rw [Option.any_some, Std.isLE_compare]
    exact (and_iff_right numbers).symm
  · next other => exact iff_of_false Bool.false_ne_true fun h => other h.1

theorem lt_iff {x y : Float} :
    x < y ↔ x.isNaN = false ∧ y.isNaN = false ∧ rank x < rank y := by
  have unfolded : x < y ↔ (x.toModel.unpack.compare y.toModel.unpack == some .lt) = true :=
    decide_eq_true_iff
  rw [unfolded, compare_eq, ← and_assoc]
  split
  · next numbers =>
    rw [beq_iff_eq, Option.some.injEq, compare_lt_iff_lt]
    exact (and_iff_right numbers).symm
  · next other => exact iff_of_false Bool.false_ne_true fun h => other h.1

theorem isNaN_eq_false {x : Float} (h : x.isFinite = true) : x.isNaN = false := by
  change x.toModel.unpack.isFinite = true at h
  change x.toModel.unpack.isNaN = false
  cases hu : x.toModel.unpack <;> rw [hu] at h <;> first | rfl | cases h

theorem le_iff_of_finite {x y : Float} (hx : x.isFinite = true) (hy : y.isFinite = true) :
    x ≤ y ↔ rank x ≤ rank y := by
  rw [le_iff, and_iff_right (isNaN_eq_false hx), and_iff_right (isNaN_eq_false hy)]

theorem lt_iff_of_finite {x y : Float} (hx : x.isFinite = true) (hy : y.isFinite = true) :
    x < y ↔ rank x < rank y := by
  rw [lt_iff, and_iff_right (isNaN_eq_false hx), and_iff_right (isNaN_eq_false hy)]

/-- The double that an unpacked triple encodes. -/
def encoded (u : UnpackedFloat) : Float :=
  .ofModel (.pack u)

theorem unpack_encoded {u : UnpackedFloat} (h : Canonical u) : (encoded u).toModel.unpack = u :=
  unpack_pack h

theorem rank_encoded {u : UnpackedFloat} (h : Canonical u) : rank (encoded u) = rankOf u :=
  congrArg rankOf (unpack_encoded h)

theorem isFinite_encoded {u : UnpackedFloat} (h : Canonical u) :
    (encoded u).isFinite = u.isFinite :=
  congrArg UnpackedFloat.isFinite (unpack_encoded h)

end Grid

end RailAtlas
