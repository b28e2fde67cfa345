import AdacHybridMsp430.BinaryFloatSpacing
import AdacHybridMsp430.FloatAttributes
import Mathlib.Data.Sign.Basic

/-!
# Fractions and exponents

`Decompose` takes every machine number but zero apart into a fraction and an
exponent, and `Scaling` puts them together again.  The loops multiply by powers
of two, and every product is a machine number.
-/

namespace AdacHybridMsp430

namespace FloatAttributes

open BinaryFloats BoundedLoops

section Powers

theorem logPower_pos (n : Expbits) : 0 < logPower n := by
  revert n
  decide

theorem logPower_zero : logPower 0 = 1 :=
  rfl

theorem logPower_succ (n : Fin 6) :
    logPower n.succ = logPower n.castSucc + logPower n.castSucc := by
  revert n
  decide

theorem rPower_eq (n : Expbits) : rPower n = 2 ^ logPower n :=
  rfl

theorem rPower_zero : rPower 0 = 2 := by
  rw [rPower_eq, logPower_zero, zpow_one]

theorem rPower_pos (n : Expbits) : 0 < rPower n := by
  rw [rPower_eq]
  positivity

theorem rPower_succ (n : Fin 6) :
    rPower n.succ = rPower n.castSucc * rPower n.castSucc := by
  rw [rPower_eq, rPower_eq, logPower_succ, zpow_add₀ (by norm_num)]

theorem rNegPower_eq (n : Expbits) : rNegPower n = (rPower n)⁻¹ := by
  rw [rNegPower, invrad, one_div, inv_zpow]
  rfl

theorem rNegPower_mul (n : Expbits) : rNegPower n * 2 ^ logPower n = 1 := by
  rw [rNegPower_eq, ← rPower_eq]
  exact inv_mul_cancel₀ (rPower_pos n).ne'

theorem rPower_mul (n : Expbits) : rPower n * 2 ^ (-logPower n) = 1 := by
  rw [zpow_neg, ← rPower_eq]
  exact mul_inv_cancel₀ (rPower_pos n).ne'

end Powers

section Products

/-- The value with its exponent is the number of the start; so were the
products, with the exponents that they had. -/
structure Follows (base : ℚ) (start : ℤ) (state : Scaled) : Prop where
  exact : state.value * 2 ^ state.exponent = base
  products : ∀ product ∈ state.products,
    ∃ e ∈ Set.uIcc start state.exponent, product * 2 ^ e = base

theorem follows_start (value : ℚ) (exponent : ℤ) :
    Follows (value * 2 ^ exponent) exponent ⟨value, exponent, []⟩ where
  exact := rfl
  products := by simp

theorem Follows.times {base : ℚ} {start : ℤ} {state : Scaled}
    (follows : Follows base start state) {power : ℚ} {shift : ℤ}
    (inverse : power * 2 ^ shift = 1)
    (onward : state.exponent ∈ Set.uIcc start (state.exponent + shift)) :
    Follows base start (state.times power shift) := by
  have exact : state.value * power * 2 ^ (state.exponent + shift) = base := by
    rw [zpow_add₀ (by norm_num), ← follows.exact]
    linear_combination (state.value * 2 ^ state.exponent) * inverse
  refine ⟨exact, ?_⟩
  intro product member
  rcases List.mem_cons.mp member with rfl | earlier
  · exact ⟨state.exponent + shift, Set.right_mem_uIcc, exact⟩
  · obtain ⟨e, between, eq⟩ := follows.products product earlier
    exact ⟨e, Set.uIcc_subset_uIcc_left onward between, eq⟩

/-- Loops over the powers follow the start, as long as every pass moves the
exponent on. -/
theorem follows_descend {guard : Expbits → Scaled → Bool} {power : Expbits → ℚ}
    {shift : Expbits → ℤ} (inverse : ∀ n, power n * 2 ^ shift n = 1)
    {value base : ℚ} {start : ℤ} (number : value * 2 ^ start = base)
    (bound : Scaled → Prop) (measure : Scaled → ℕ)
    (keeps : ∀ n state, bound state → guard n state = true →
      state.exponent ∈ Set.uIcc start (state.exponent + shift n) ∧
        bound (state.times (power n) (shift n)))
    (less : ∀ state, Follows base start state → bound state →
      guard (Fin.last 6) state = true →
      measure (state.times (power (Fin.last 6)) (shift (Fin.last 6))) <
        measure state)
    (halves : ∀ (n : Fin 6) state, guard n.succ state = false →
      guard n.castSucc (state.times (power n.castSucc) (shift n.castSucc)) =
        false)
    (first : bound ⟨value, start, []⟩) {fuel : ℕ}
    (enough : measure ⟨value, start, []⟩ < fuel) :
    ∃ last,
      descend guard (fun n state => state.times (power n) (shift n)) fuel
          ⟨value, start, []⟩ = some last ∧
        (Follows base start last ∧ bound last) ∧ guard 0 last = false := by
  apply descend_spec (fun state => Follows base start state ∧ bound state)
    measure _ _ _ _ enough
  · rintro n state ⟨follows, holds⟩ passes
    obtain ⟨onward, kept⟩ := keeps n state holds passes
    exact ⟨follows.times (inverse n) onward, kept⟩
  · rintro state ⟨follows, holds⟩ passes
    exact less state follows holds passes
  · intro n state _ above _
    exact halves n state above
  · refine ⟨?_, first⟩
    rw [← number]
    exact follows_start value start

end Products

section Normalizing

/-- A number from one on is the part of it that is left, times a power. -/
theorem Follows.exponent_lt {base : ℚ} {start limit : ℤ} {state : Scaled}
    (follows : Follows base start state) (range : base < 2 ^ limit)
    (large : 1 ≤ state.value) : state.exponent < limit := by
  rw [← follows.exact] at range
  have power : (0 : ℚ) < 2 ^ state.exponent := by positivity
  have below := (le_mul_of_one_le_left power.le large).trans_lt range
  exact (zpow_lt_zpow_iff_right₀ (by norm_num)).mp below

theorem Follows.lt_exponent {base : ℚ} {start limit : ℤ} {state : Scaled}
    (follows : Follows base start state) (range : 2 ^ limit ≤ base)
    (small : state.value < 1) : limit < state.exponent := by
  rw [← follows.exact] at range
  have power : (0 : ℚ) < 2 ^ state.exponent := by positivity
  have above := range.trans_lt (mul_lt_of_lt_one_left power small)
  exact (zpow_lt_zpow_iff_right₀ (by norm_num)).mp above

/-- Dividing by the powers leaves a number between one and the radix. -/
theorem reduceLoop_spec {base : ℚ} {limit : ℤ} (large : 1 ≤ base)
    (range : base < 2 ^ limit) {fuel : ℕ} (enough : limit.toNat < fuel) :
    ∃ state,
      descend (fun n state => rPower n ≤ state.value)
          (fun n state => state.times (rNegPower n) (logPower n)) fuel
          ⟨base, 0, []⟩ = some state ∧
        (Follows base 0 state ∧ 0 ≤ state.exponent ∧ 1 ≤ state.value) ∧
        decide (rPower 0 ≤ state.value) = false := by
  apply follows_descend rNegPower_mul (show base * 2 ^ (0 : ℤ) = base by simp)
    (fun state => 0 ≤ state.exponent ∧ 1 ≤ state.value)
    (fun state => (limit - state.exponent).toNat)
  · rintro n state ⟨nonneg, lower⟩ passes
    have guard := of_decide_eq_true passes
    have shift := logPower_pos n
    refine ⟨?_, ?_, ?_⟩
    · rw [Set.mem_uIcc]
      omega
    · change 0 ≤ state.exponent + logPower n
      omega
    · change 1 ≤ state.value * rNegPower n
      rw [rNegPower_eq, ← div_eq_mul_inv, one_le_div (rPower_pos n)]
      exact guard
  · rintro state follows ⟨nonneg, lower⟩ passes
    have less := follows.exponent_lt range lower
    have shift := logPower_pos (Fin.last 6)
    change (limit - (state.exponent + logPower (Fin.last 6))).toNat < _
    omega
  · intro n state above
    have upper := of_decide_eq_false above
    have positive := rPower_pos n.castSucc
    rw [not_le, rPower_succ] at upper
    apply decide_eq_false
    change ¬ rPower n.castSucc ≤ state.value * rNegPower n.castSucc
    rw [not_le, rNegPower_eq, ← div_eq_mul_inv, div_lt_iff₀ positive]
    exact upper
  · exact ⟨le_rfl, large⟩
  · simpa using enough

theorem reduce_spec {base : ℚ} {limit : ℤ} (large : 1 ≤ base)
    (range : base < 2 ^ limit) {fuel : ℕ} (enough : limit.toNat < fuel) :
    ∃ state, reduce fuel ⟨base, 0, []⟩ = some state ∧ Follows base 0 state ∧
      1 / 2 ≤ state.value ∧ state.value < 1 := by
  obtain ⟨state, ends, ⟨follows, nonneg, lower⟩, done⟩ :=
    reduceLoop_spec large range enough
  have upper := of_decide_eq_false done
  rw [not_le, rPower_zero] at upper
  refine ⟨state.times invrad 1, ?_, ?_, ?_, ?_⟩
  · rw [reduce, ends]
    rfl
  · apply follows.times
    · norm_num [invrad, rad]
    · rw [Set.mem_uIcc]
      omega
  · change 1 / 2 ≤ state.value * (1 / 2)
    linarith
  · change state.value * (1 / 2) < 1
    linarith

theorem enlarge_spec {base : ℚ} {limit : ℤ} (small : base < 1)
    (range : 2 ^ limit ≤ base) {fuel : ℕ} (enough : (-limit).toNat < fuel) :
    ∃ state, enlarge fuel ⟨base, 0, []⟩ = some state ∧ Follows base 0 state ∧
      1 / 2 ≤ state.value ∧ state.value < 1 := by
  have loops : ∃ state,
      enlarge fuel ⟨base, 0, []⟩ = some state ∧
        (Follows base 0 state ∧ state.exponent ≤ 0 ∧ state.value < 1) ∧
        decide (state.value < rNegPower 0) = false := by
    apply follows_descend rPower_mul (show base * 2 ^ (0 : ℤ) = base by simp)
      (fun state => state.exponent ≤ 0 ∧ state.value < 1)
      (fun state => (state.exponent - limit).toNat)
    · rintro n state ⟨nonpos, upper⟩ passes
      have guard := of_decide_eq_true passes
      have shift := logPower_pos n
      refine ⟨?_, ?_, ?_⟩
      · rw [Set.mem_uIcc]
        omega
      · change state.exponent + -logPower n ≤ 0
        omega
      · change state.value * rPower n < 1
        rwa [rNegPower_eq, ← one_div, lt_div_iff₀ (rPower_pos n)] at guard
    · rintro state follows ⟨nonpos, upper⟩ passes
      have less := follows.lt_exponent range upper
      have shift := logPower_pos (Fin.last 6)
      change (state.exponent + -logPower (Fin.last 6) - limit).toNat < _
      omega
    · intro n state above
      have lower := of_decide_eq_false above
      have positive := rPower_pos n.castSucc
      rw [not_lt, rNegPower_eq, rPower_succ, mul_inv, ← div_eq_mul_inv,
        div_le_iff₀ positive] at lower
      apply decide_eq_false
      change ¬ state.value * rPower n.castSucc < rNegPower n.castSucc
      rw [not_lt, rNegPower_eq]
      exact lower
    · exact ⟨le_rfl, small⟩
    · simpa using enough
  obtain ⟨state, ends, ⟨follows, _, upper⟩, done⟩ := loops
  have lower := of_decide_eq_false done
  rw [not_lt, rNegPower_eq, rPower_zero, ← one_div] at lower
  exact ⟨state, ends, follows, lower, upper⟩

end Normalizing

section Scaling

theorem scaleDown_spec {x : ℚ} {adjustment : ℤ} (negative : adjustment < 0)
    {fuel : ℕ} (enough : adjustment.natAbs < fuel) :
    ∃ state, scaleDown fuel ⟨x, adjustment, []⟩ = some state ∧
      Follows (x * 2 ^ adjustment) adjustment state ∧ state.exponent = 0 := by
  have loops : ∃ state,
      scaleDown fuel ⟨x, adjustment, []⟩ = some state ∧
        (Follows (x * 2 ^ adjustment) adjustment state ∧
          adjustment ≤ state.exponent ∧ state.exponent ≤ 0) ∧
        decide (state.exponent ≤ -logPower 0) = false := by
    apply follows_descend rNegPower_mul rfl
      (fun state => adjustment ≤ state.exponent ∧ state.exponent ≤ 0)
      (fun state => state.exponent.natAbs)
    · rintro n state ⟨lower, upper⟩ passes
      have guard := of_decide_eq_true passes
      have shift := logPower_pos n
      refine ⟨?_, ?_⟩
      · rw [Set.mem_uIcc]
        omega
      · change adjustment ≤ state.exponent + logPower n ∧
          state.exponent + logPower n ≤ 0
        omega
    · rintro state _ _ passes
      have guard := of_decide_eq_true passes
      have shift := logPower_pos (Fin.last 6)
      change (state.exponent + logPower (Fin.last 6)).natAbs < _
      omega
    · intro n state above
      have lower := of_decide_eq_false above
      rw [logPower_succ] at lower
      apply decide_eq_false
      change ¬ state.exponent + logPower n.castSucc ≤ -logPower n.castSucc
      omega
    · exact ⟨le_rfl, negative.le⟩
    · exact enough
  obtain ⟨state, ends, ⟨follows, _, upper⟩, done⟩ := loops
  have lower := of_decide_eq_false done
  rw [logPower_zero] at lower
  exact ⟨state, ends, follows, by omega⟩

theorem scaleUp_spec {x : ℚ} {adjustment : ℤ} (nonneg : 0 ≤ adjustment)
    {fuel : ℕ} (enough : adjustment.natAbs < fuel) :
    ∃ state, scaleUp fuel ⟨x, adjustment, []⟩ = some state ∧
      Follows (x * 2 ^ adjustment) adjustment state ∧ state.exponent = 0 := by
  have loops : ∃ state,
      scaleUp fuel ⟨x, adjustment, []⟩ = some state ∧
        (Follows (x * 2 ^ adjustment) adjustment state ∧
          0 ≤ state.exponent ∧ state.exponent ≤ adjustment) ∧
        decide (logPower 0 ≤ state.exponent) = false := by
    apply follows_descend rPower_mul rfl
      (fun state => 0 ≤ state.exponent ∧ state.exponent ≤ adjustment)
      (fun state => state.exponent.natAbs)
    · rintro n state ⟨lower, upper⟩ passes
      have guard := of_decide_eq_true passes
      have shift := logPower_pos n
      refine ⟨?_, ?_⟩
      · rw [Set.mem_uIcc]
        omega
      · change 0 ≤ state.exponent + -logPower n ∧
          state.exponent + -logPower n ≤ adjustment
        omega
    · rintro state _ _ passes
      have guard := of_decide_eq_true passes
      have shift := logPower_pos (Fin.last 6)
      change (state.exponent + -logPower (Fin.last 6)).natAbs < _
      omega
    · intro n state above
      have upper := of_decide_eq_false above
      rw [logPower_succ] at upper
      apply decide_eq_false
      change ¬ logPower n.castSucc ≤ state.exponent + -logPower n.castSucc
      omega
    · exact ⟨nonneg, le_rfl⟩
    · exact enough
  obtain ⟨state, ends, ⟨follows, lower, _⟩, done⟩ := loops
  have upper := of_decide_eq_false done
  rw [logPower_zero] at upper
  exact ⟨state, ends, follows, by omega⟩

/-- `Scaling` multiplies by the power, and every product has a part of it. -/
theorem scaling_spec (x : ℚ) {adjustment : ℤ} {fuel : ℕ}
    (enough : adjustment.natAbs < fuel) :
    ∃ scaled, scaling fuel x adjustment = some scaled ∧
      scaled.value = x * 2 ^ adjustment ∧
      ∀ product ∈ scaled.products,
        ∃ e ∈ Set.uIcc 0 adjustment, product * 2 ^ e = x * 2 ^ adjustment := by
  unfold scaling
  by_cases trivial : x = 0 ∨ adjustment = 0
  · rw [if_pos trivial]
    refine ⟨_, rfl, ?_, by simp⟩
    rcases trivial with rfl | rfl
    · simp
    · simp
  rw [if_neg trivial]
  have loops : ∃ state, scale fuel ⟨x, adjustment, []⟩ = some state ∧
      Follows (x * 2 ^ adjustment) adjustment state ∧ state.exponent = 0 := by
    unfold scale
    dsimp only
    split
    · exact scaleDown_spec ‹_› enough
    · exact scaleUp_spec (by omega) enough
  obtain ⟨state, ends, follows, done⟩ := loops
  refine ⟨⟨state.value, state.products⟩, ?_, ?_, ?_⟩
  · rw [ends]
    rfl
  · have exact := follows.exact
    rwa [done, zpow_zero, mul_one] at exact
  · intro product member
    obtain ⟨e, between, eq⟩ := follows.products product member
    rw [done, Set.uIcc_comm] at between
    exact ⟨e, between, eq⟩

end Scaling

section Decomposing

/-- A fraction and an exponent of a number. -/
structure Normalized (x frac : ℚ) (expo : ℤ) : Prop where
  exact : x = frac * 2 ^ expo
  lower : 1 / 2 ≤ |frac|
  upper : |frac| < 1
  sign : SignType.sign frac = SignType.sign x

theorem Normalized.lt_two_zpow {x frac : ℚ} {expo : ℤ}
    (normalized : Normalized x frac expo) : |x| < 2 ^ expo := by
  have power : (0 : ℚ) < 2 ^ expo := by positivity
  rw [normalized.exact, abs_mul, abs_of_pos power]
  exact mul_lt_of_lt_one_left power normalized.upper

theorem Normalized.two_zpow_le {x frac : ℚ} {expo : ℤ}
    (normalized : Normalized x frac expo) : 2 ^ (expo - 1) ≤ |x| := by
  have power : (0 : ℚ) < 2 ^ expo := by positivity
  rw [normalized.exact, abs_mul, abs_of_pos power, zpow_sub_one₀ (by norm_num)]
  have half := mul_le_mul_of_nonneg_right normalized.lower power.le
  linarith

/-- A number has one exponent and one fraction. -/
theorem Normalized.unique {x frac other : ℚ} {expo otherExpo : ℤ}
    (first : Normalized x frac expo) (second : Normalized x other otherExpo) :
    frac = other ∧ expo = otherExpo := by
  have less := first.two_zpow_le.trans_lt second.lt_two_zpow
  have greater := second.two_zpow_le.trans_lt first.lt_two_zpow
  rw [zpow_lt_zpow_iff_right₀ (by norm_num)] at less greater
  obtain rfl : expo = otherExpo := by
    omega
  refine ⟨?_, rfl⟩
  have power : (2 : ℚ) ^ expo ≠ 0 := by positivity
  have exact := second.exact
  rw [first.exact] at exact
  exact mul_right_cancel₀ power exact

theorem normalized_self {frac : ℚ} (lower : 1 / 2 ≤ |frac|) (upper : |frac| < 1) :
    Normalized frac frac 0 where
  exact := by simp
  lower := lower
  upper := upper
  sign := rfl

variable {format : Format}

theorem Normalized.lt_expo {x frac : ℚ} {expo : ℤ}
    (normalized : Normalized x frac expo)
    (representable : format.Representable x) (nonzero : x ≠ 0) :
    format.minExponent < expo := by
  have less := (representable.le_abs nonzero).trans_lt normalized.lt_two_zpow
  exact (zpow_lt_zpow_iff_right₀ (by norm_num)).mp less

theorem Normalized.expo_le {x frac : ℚ} {expo : ℤ}
    (normalized : Normalized x frac expo)
    (representable : format.Representable x) : expo ≤ format.maxExponent := by
  obtain ⟨_, _, _, _, _, range⟩ := representable
  have less := normalized.two_zpow_le.trans_lt range
  rw [zpow_lt_zpow_iff_right₀ (by norm_num)] at less
  omega

/-- The finite machine numbers are not outside of the safe range. -/
theorem safe_of_representable {x : ℚ} (representable : format.Representable x) :
    ¬ safeLast format < x ∧ ¬ x < safeFirst format := by
  have bound : |x| ≤ safeLast format := representable.abs_le_greatest
  obtain ⟨lower, upper⟩ := abs_le.mp bound
  exact ⟨not_lt.mpr upper, not_lt.mpr lower⟩

/-- The passes that a loop makes at most over the numbers of a format. -/
def passes (format : Format) : ℕ :=
  (format.maxExponent - format.minExponent).toNat

theorem normalize_spec {base : ℚ} (representable : format.Representable base)
    (positive : 0 < base) {fuel : ℕ} (enough : passes format < fuel) :
    ∃ state, normalize fuel ⟨base, 0, []⟩ = some state ∧ Follows base 0 state ∧
      1 / 2 ≤ state.value ∧ state.value < 1 := by
  have minimum := format.minExponent_nonpos
  have maximum := format.maxExponent_pos
  rw [passes] at enough
  unfold normalize
  dsimp only
  split
  · have range : base < 2 ^ format.maxExponent := by
      obtain ⟨_, _, _, _, _, range⟩ := representable
      exact (le_abs_self base).trans_lt range
    exact reduce_spec ‹_› range (by omega)
  · have range := representable.le_abs positive.ne'
    rw [abs_of_pos positive] at range
    exact enlarge_spec (not_le.mp ‹_›) range (by omega)

theorem normalized_of_follows {x : ℚ} (nonzero : x ≠ 0) {state : Scaled}
    (follows : Follows |x| 0 state) (lower : 1 / 2 ≤ state.value)
    (upper : state.value < 1) :
    Normalized x (if 0 < x then state.value else -state.value)
      state.exponent := by
  have exact := follows.exact
  have positive : 0 < state.value := by linarith
  rcases lt_or_gt_of_ne nonzero with negative | above
  · rw [if_neg negative.not_gt]
    refine ⟨?_, ?_, ?_, ?_⟩
    · rw [neg_mul, exact, abs_of_neg negative, neg_neg]
    · rwa [abs_neg, abs_of_pos positive]
    · rwa [abs_neg, abs_of_pos positive]
    · rw [sign_neg (neg_neg_of_pos positive), sign_neg negative]
  · rw [if_pos above]
    refine ⟨?_, ?_, ?_, ?_⟩
    · rw [exact, abs_of_pos above]
    · rwa [abs_of_pos positive]
    · rwa [abs_of_pos positive]
    · rw [sign_pos positive, sign_pos above]

/-- `Decompose` normalizes every machine number but zero, and every product has
a part of the exponent. -/
theorem decompose_spec {x : ℚ} (representable : format.Representable x)
    (nonzero : x ≠ 0) {fuel : ℕ} (enough : passes format < fuel) :
    ∃ parts, decompose format fuel x = some parts ∧
      Normalized x parts.frac parts.expo ∧
      ∀ product ∈ parts.products,
        ∃ e ∈ Set.uIcc 0 parts.expo, product * 2 ^ e = |x| := by
  obtain ⟨state, ends, follows, lower, upper⟩ :=
    normalize_spec representable.abs (abs_pos.mpr nonzero) enough
  obtain ⟨notAbove, notBelow⟩ := safe_of_representable representable
  refine ⟨⟨_, state.exponent, state.products⟩, ?_,
    normalized_of_follows nonzero follows lower upper, follows.products⟩
  have same : machine format x = x := nearest_of_representable representable
  unfold decompose
  dsimp only
  rw [same, if_neg nonzero, if_neg notAbove, if_neg notBelow, ends]
  rfl

end Decomposing

section Products

variable {format : Format}

/-- A product with a part of the exponent of a machine number is a machine
number: it is scaled up to below one, or is normal. -/
theorem Normalized.representable {x frac : ℚ} {expo : ℤ}
    (normal : format.minExponent + format.precision ≤ 0)
    (normalized : Normalized x frac expo) (representable : format.Representable x)
    {product : ℚ} {e : ℤ} (between : e ∈ Set.uIcc 0 expo)
    (exact : |product| * 2 ^ e = |x|) : format.Representable product := by
  have power : (0 : ℚ) < 2 ^ e := by positivity
  apply representable_of_abs
  rcases Set.mem_uIcc.mp between with ⟨nonneg, le⟩ | ⟨le, nonpos⟩
  · apply representable.abs.of_scaled exact
    · have one : (1 : ℚ) ≤ 2 ^ e := one_le_zpow₀ (by norm_num) nonneg
      obtain ⟨_, _, _, _, _, range⟩ := representable
      calc |(|product|)| = |product| := abs_abs product
        _ ≤ |product| * 2 ^ e := le_mul_of_one_le_right (abs_nonneg product) one
        _ = |x| := exact
        _ < 2 ^ format.maxExponent := range
    · right
      rw [abs_abs]
      apply le_of_mul_le_mul_right _ power
      calc (2 : ℚ) ^ (format.minExponent + format.precision - 1) * 2 ^ e =
            2 ^ (format.minExponent + format.precision - 1 + e) := by
            rw [zpow_add₀ (by norm_num)]
        _ ≤ 2 ^ (expo - 1) := zpow_le_zpow_right₀ (by norm_num) (by omega)
        _ ≤ |x| := normalized.two_zpow_le
        _ = |product| * 2 ^ e := exact.symm
  · apply representable.abs.of_scaled exact
    · have binade : (2 : ℚ) ^ expo ≤ 2 ^ e :=
        zpow_le_zpow_right₀ (by norm_num) le
      have small : |product| * 2 ^ e < 1 * 2 ^ e := by
        rw [exact, one_mul]
        exact normalized.lt_two_zpow.trans_le binade
      rw [abs_abs]
      exact (lt_of_mul_lt_mul_right small power.le).trans
        (one_lt_zpow₀ (by norm_num) format.maxExponent_pos)
    · exact Or.inl nonpos

/-- The products of `Decompose`. -/
theorem Normalized.representable_of_abs {x frac : ℚ} {expo : ℤ}
    (normal : format.minExponent + format.precision ≤ 0)
    (normalized : Normalized x frac expo) (representable : format.Representable x)
    {product : ℚ}
    (scaled : ∃ e ∈ Set.uIcc 0 expo, product * 2 ^ e = |x|) :
    format.Representable product := by
  obtain ⟨e, between, exact⟩ := scaled
  apply normalized.representable normal representable between
  have power : (0 : ℚ) < 2 ^ e := by positivity
  rw [← abs_abs x, ← exact, abs_mul, abs_of_pos power]

/-- The products of `Scaling`. -/
theorem Normalized.representable_of_scaled {x frac : ℚ} {expo : ℤ}
    (normal : format.minExponent + format.precision ≤ 0)
    (normalized : Normalized x frac expo) (representable : format.Representable x)
    {product : ℚ}
    (scaled : ∃ e ∈ Set.uIcc 0 expo, product * 2 ^ e = frac * 2 ^ expo) :
    format.Representable product := by
  obtain ⟨e, between, exact⟩ := scaled
  apply normalized.representable normal representable between
  have power : (0 : ℚ) < 2 ^ e := by positivity
  rw [normalized.exact, ← exact, abs_mul, abs_of_pos power]

theorem Normalized.representable_frac {x frac : ℚ} {expo : ℤ}
    (normal : format.minExponent + format.precision ≤ 0)
    (normalized : Normalized x frac expo)
    (representable : format.Representable x) : format.Representable frac :=
  normalized.representable_of_scaled normal representable
    ⟨expo, Set.right_mem_uIcc, rfl⟩

end Products

section Composing

variable {format : Format}

theorem Normalized.natAbs_le {x frac : ℚ} {expo : ℤ}
    (normalized : Normalized x frac expo) (representable : format.Representable x)
    (nonzero : x ≠ 0) : expo.natAbs ≤ passes format := by
  have lower := normalized.lt_expo representable nonzero
  have upper := normalized.expo_le representable
  have minimum := format.minExponent_nonpos
  have maximum := format.maxExponent_pos
  rw [passes]
  omega

/-- A fraction is its own fraction. -/
theorem decompose_frac {x frac : ℚ} {expo : ℤ}
    (normal : format.minExponent + format.precision ≤ 0)
    (normalized : Normalized x frac expo) (representable : format.Representable x)
    {fuel : ℕ} (enough : passes format < fuel) :
    ∃ parts, decompose format fuel frac = some parts ∧ parts.frac = frac ∧
      ∀ product ∈ parts.products, format.Representable product := by
  have machine := normalized.representable_frac normal representable
  have nonzero : frac ≠ 0 := by
    rintro rfl
    have lower := normalized.lower
    norm_num at lower
  obtain ⟨parts, ends, again, products⟩ := decompose_spec machine nonzero enough
  have self := normalized_self normalized.lower normalized.upper
  refine ⟨parts, ends, (again.unique self).1, ?_⟩
  intro product member
  exact again.representable_of_abs normal machine (products product member)

/-- `Compose` scales a fraction by every exponent. -/
theorem compose_spec {x frac : ℚ} {expo : ℤ}
    (normal : format.minExponent + format.precision ≤ 0)
    (normalized : Normalized x frac expo) (representable : format.Representable x)
    (exponent : ℤ) {fuel : ℕ} (enough : passes format < fuel)
    (enoughExponent : exponent.natAbs < fuel) :
    ∃ scaled arg, scaling fuel frac exponent = some scaled ∧
      scaled.value = frac * 2 ^ exponent ∧
      compose format fuel frac exponent =
        some ⟨scaled.value, scaled.products ++ arg⟩ ∧
      (∀ product ∈ scaled.products,
        ∃ e ∈ Set.uIcc 0 exponent, product * 2 ^ e = frac * 2 ^ exponent) ∧
      ∀ product ∈ arg, format.Representable product := by
  obtain ⟨parts, ends, same, products⟩ :=
    decompose_frac normal normalized representable enough
  obtain ⟨scaled, scales, value, exact⟩ := scaling_spec frac enoughExponent
  refine ⟨scaled, parts.products, scales, value, ?_, exact, products⟩
  rw [compose, ends, Option.bind_eq_bind, Option.bind_some, same, scales]
  rfl

end Composing

section Packages

/-- The number one is normal in both formats. -/
theorem package_normal (package : Package) :
    package.format.minExponent + package.format.precision ≤ 0 := by
  cases package with
  | fatFlt => decide
  | fatLFlt => decide

/-- Both packages take every machine number but zero apart into a fraction and
an exponent, and put it together again, through machine numbers only. -/
theorem decomposes_and_composes (package : Package) {fuel : ℕ}
    (enough : passes package.format < fuel) {x : ℚ}
    (representable : package.format.Representable x) (nonzero : x ≠ 0) :
    ∃ parts composed scaled,
      decompose package.format fuel x = some parts ∧
      Normalized x parts.frac parts.expo ∧
      fraction package.format fuel x = some parts.frac ∧
      exponent package.format fuel x = some parts.expo ∧
      compose package.format fuel parts.frac parts.expo = some composed ∧
      composed.value = x ∧
      scaling fuel parts.frac parts.expo = some scaled ∧
      scaled.value = x ∧
      ∀ product ∈ parts.products ++ composed.products ++ scaled.products,
        package.format.Representable product := by
  have normal := package_normal package
  obtain ⟨parts, ends, normalized, products⟩ :=
    decompose_spec representable nonzero enough
  have expoLe := normalized.natAbs_le representable nonzero
  obtain ⟨scaled, arg, scales, value, composes, scaledProducts, argProducts⟩ :=
    compose_spec normal normalized representable parts.expo enough (by omega)
  have valueEq : scaled.value = x := by
    rw [value, normalized.exact]
  have scaledMachine : ∀ product ∈ scaled.products,
      package.format.Representable product := by
    intro product member
    exact normalized.representable_of_scaled normal representable
      (scaledProducts product member)
  refine ⟨parts, ⟨scaled.value, scaled.products ++ arg⟩, scaled, ends, normalized,
    ?_, ?_, composes, valueEq, scales, valueEq, ?_⟩
  · rw [fraction, ends]
    rfl
  · rw [exponent, ends]
    rfl
  · intro product member
    simp only [List.mem_append] at member
    rcases member with (decomposed | scaled | composed) | scaled
    · exact normalized.representable_of_abs normal representable
        (products product decomposed)
    · exact scaledMachine product scaled
    · exact argProducts product composed
    · exact scaledMachine product scaled

/-- The least positive machine number of `Float`, which is denormal. -/
theorem decomposes_and_composes_least :
    ∃ parts composed scaled,
      decompose Package.fatFlt.format 278 (2 ^ (-149 : ℤ)) = some parts ∧
      Normalized (2 ^ (-149 : ℤ)) parts.frac parts.expo ∧
      fraction Package.fatFlt.format 278 (2 ^ (-149 : ℤ)) = some parts.frac ∧
      exponent Package.fatFlt.format 278 (2 ^ (-149 : ℤ)) = some parts.expo ∧
      compose Package.fatFlt.format 278 parts.frac parts.expo =
        some composed ∧
      composed.value = 2 ^ (-149 : ℤ) ∧
      scaling 278 parts.frac parts.expo = some scaled ∧
      scaled.value = 2 ^ (-149 : ℤ) ∧
      ∀ product ∈ parts.products ++ composed.products ++ scaled.products,
        Package.fatFlt.format.Representable product := by
  apply decomposes_and_composes
  · decide
  · apply representable_two_zpow
    · decide
    · decide
  · positivity

end Packages

end FloatAttributes

end AdacHybridMsp430
