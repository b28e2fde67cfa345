import AdacHybridMsp430.BinaryFloatSums

/-!
# Scaled factors

Rounding commutes with powers of two as long as no number gets subnormal.  Where
a product overflows, scaling the factors down and the product up again therefore
leads to the same infinity.
-/

namespace BinaryFloats

variable {format : Format}

section Rounding

theorem floor_le_roundHalfEven (value : ℚ) : ⌊value⌋ ≤ roundHalfEven value := by
  rcases roundHalfEven_cases value with same | ⟨next, _⟩
  · exact same.ge
  · rw [next]
    exact (lt_add_one _).le

/-- Rounding does not leave the outside of an interval with integer ends. -/
theorem le_abs_roundHalfEven {value : ℚ} {bound : ℤ} (le : bound ≤ |value|) :
    bound ≤ |roundHalfEven value| := by
  rcases le_total 0 value with nonneg | nonpos
  · rw [abs_of_nonneg nonneg] at le
    exact ((Int.le_floor.mpr le).trans (floor_le_roundHalfEven value)).trans
      (le_abs_self _)
  · rw [abs_of_nonpos nonpos] at le
    rw [← abs_neg, ← roundHalfEven_neg]
    exact ((Int.le_floor.mpr le).trans (floor_le_roundHalfEven (-value))).trans
      (le_abs_self _)

/-- Rounding does not go below a power of two. -/
theorem two_zpow_le_abs_nearest {value : ℚ} {exponent : ℤ}
    (minimum : format.minExponent ≤ exponent) (le : 2 ^ exponent ≤ |value|) :
    2 ^ exponent ≤ |format.nearest value| := by
  have positive : 0 < |value| := lt_of_lt_of_le (by positivity) le
  have log : exponent ≤ Int.log 2 |value| :=
    (Int.zpow_le_iff_le_log (by decide) positive).mp (by exact_mod_cast le)
  have place : format.lastPlace value ≤ Int.log 2 |value| := by
    have precision := format.precision_pos
    rw [Format.lastPlace]
    omega
  obtain ⟨shift, split⟩ : ∃ shift : ℕ,
      Int.log 2 |value| = format.lastPlace value + shift :=
    ⟨(Int.log 2 |value| - format.lastPlace value).toNat, by omega⟩
  have power : (0 : ℚ) < 2 ^ format.lastPlace value := by positivity
  have bound : ((2 ^ shift : ℤ) : ℚ) ≤ |value / 2 ^ format.lastPlace value| := by
    have below := Int.zpow_log_le_self (b := 2) (by decide) positive
    rw [split, Nat.cast_ofNat, zpow_add₀ (by norm_num), zpow_natCast] at below
    rw [abs_div, abs_of_pos power, le_div_iff₀ power, mul_comm]
    exact_mod_cast below
  have rounded : ((2 ^ shift : ℤ) : ℚ) ≤
      |(roundHalfEven (value / 2 ^ format.lastPlace value) : ℚ)| := by
    exact_mod_cast le_abs_roundHalfEven bound
  calc (2 : ℚ) ^ exponent ≤ 2 ^ (format.lastPlace value + shift) :=
        zpow_le_zpow_right₀ (by norm_num) (split ▸ log)
    _ = ((2 ^ shift : ℤ) : ℚ) * 2 ^ format.lastPlace value := by
        rw [zpow_add₀ (by norm_num), zpow_natCast]
        push_cast
        ring
    _ ≤ |format.nearest value| := by
        rw [Format.nearest, abs_mul, abs_of_pos power]
        exact mul_le_mul_of_nonneg_right rounded power.le

/-- Rounding does not go above a multiple of a place that it keeps. -/
theorem abs_nearest_le_mul {value : ℚ} {bound place : ℤ}
    (kept : format.lastPlace value ≤ place) (le : |value| ≤ bound * 2 ^ place) :
    |format.nearest value| ≤ bound * 2 ^ place := by
  obtain ⟨shift, rfl⟩ : ∃ shift : ℕ, place = format.lastPlace value + shift :=
    ⟨(place - format.lastPlace value).toNat, by omega⟩
  have power : (0 : ℚ) < 2 ^ format.lastPlace value := by positivity
  have boundIs : (bound : ℚ) * 2 ^ (format.lastPlace value + (shift : ℤ)) =
      ((bound * 2 ^ shift : ℤ) : ℚ) * 2 ^ format.lastPlace value := by
    rw [zpow_add₀ (by norm_num), zpow_natCast]
    push_cast
    ring
  rw [boundIs] at le ⊢
  have digits : |value / 2 ^ format.lastPlace value| ≤ ((bound * 2 ^ shift : ℤ) : ℚ) := by
    rwa [abs_div, abs_of_pos power, div_le_iff₀ power]
  have rounded : |(roundHalfEven (value / 2 ^ format.lastPlace value) : ℚ)| ≤
      ((bound * 2 ^ shift : ℤ) : ℚ) := by
    exact_mod_cast abs_roundHalfEven_le digits
  rw [Format.nearest, abs_mul, abs_of_pos power]
  exact mul_le_mul_of_nonneg_right rounded power.le

/-- Rounding does not go above a power of two. -/
theorem abs_nearest_le_two_zpow {value : ℚ} {exponent : ℤ}
    (minimum : format.minExponent ≤ exponent) (le : |value| ≤ 2 ^ exponent) :
    |format.nearest value| ≤ 2 ^ exponent := by
  rcases eq_or_ne value 0 with rfl | nonzero
  · rw [nearest_zero, abs_zero]
    positivity
  have positive : 0 < |value| := abs_pos.mpr nonzero
  have log : Int.log 2 |value| ≤ exponent := by
    have below : |value| < ((2 : ℕ) : ℚ) ^ (exponent + 1) := by
      apply le.trans_lt
      exact zpow_lt_zpow_right₀ (by norm_num) (lt_add_one exponent)
    have less := (Int.lt_zpow_iff_log_lt (by decide) positive).mp below
    omega
  have kept : format.lastPlace value ≤ exponent := by
    have precision := format.precision_pos
    rw [Format.lastPlace]
    omega
  have bounded := abs_nearest_le_mul kept
    (show |value| ≤ ((1 : ℤ) : ℚ) * 2 ^ exponent by simpa using le)
  simpa using bounded

/-- Rounding does not go above a machine number. -/
theorem Format.Representable.abs_nearest_le {value bound : ℚ}
    (representable : format.Representable bound) (le : |value| ≤ |bound|) :
    |format.nearest value| ≤ |bound| := by
  rcases eq_or_ne value 0 with rfl | nonzero
  · rw [nearest_zero, abs_zero]
    exact abs_nonneg bound
  have positive : 0 < |value| := abs_pos.mpr nonzero
  obtain ⟨significand, exponent, rfl, size, exponentLe, _⟩ := representable
  have significandNonzero : significand ≠ 0 := by
    rintro rfl
    simp only [Int.cast_zero, zero_mul, abs_zero] at le
    exact positive.not_ge le
  have kept : format.lastPlace value ≤ exponent := by
    apply le_trans _ (lastPlace_le size exponentLe significandNonzero)
    have log := Int.log_mono_right (b := 2) positive le
    rw [Format.lastPlace, Format.lastPlace]
    omega
  have power : (0 : ℚ) < 2 ^ exponent := by positivity
  rw [abs_mul, abs_of_pos power, ← Int.cast_abs] at le ⊢
  exact abs_nearest_le_mul kept le

/-- The difference of two machine numbers of one sign does not overflow. -/
theorem representable_nearest_sub {x y : ℚ} (xMachine : format.Representable x)
    (yMachine : format.Representable y) (xNonneg : 0 ≤ x) (yNonneg : 0 ≤ y) :
    format.Representable (format.nearest (x - y)) := by
  apply representable_nearest
  rcases le_total x y with below | above
  · have le : |x - y| ≤ |y| := by
      rw [abs_of_nonneg yNonneg, abs_le]
      constructor <;> linarith
    have bounded := yMachine.abs_nearest_le le
    obtain ⟨_, _, _, _, _, range⟩ := yMachine
    exact bounded.trans_lt range
  · have le : |x - y| ≤ |x| := by
      rw [abs_of_nonneg xNonneg, abs_le]
      constructor <;> linarith
    have bounded := xMachine.abs_nearest_le le
    obtain ⟨_, _, _, _, _, range⟩ := xMachine
    exact bounded.trans_lt range

end Rounding

section Products

variable {x y : ℚ} {exponent : ℤ}

/-- A factor that is not small can be scaled down. -/
theorem Format.Representable.scaleDown (representable : format.Representable x)
    (nonneg : 0 ≤ exponent)
    (low : format.minExponent + format.precision ≤ -exponent)
    (large : 2 ^ (-1 : ℤ) ≤ |x|) : format.Representable (x / 2 ^ exponent) := by
  have power : (0 : ℚ) < 2 ^ exponent := by positivity
  have one : (1 : ℚ) ≤ 2 ^ exponent := one_le_zpow₀ (by norm_num) nonneg
  have ⟨_, _, _, _, _, range⟩ := representable
  apply representable.of_scaled (div_mul_cancel₀ x power.ne')
  · rw [abs_div, abs_of_pos power]
    exact (div_le_self (abs_nonneg x) one).trans_lt range
  · right
    rw [abs_div, abs_of_pos power, le_div_iff₀ power, ← zpow_add₀ (by norm_num)]
    exact (zpow_le_zpow_right₀ (by norm_num) (by omega)).trans large

theorem Value.eq_finite {value : Value format} (valueIs : value.rational = some x) :
    ∃ representable, value = .finite x representable := by
  cases value with
  | finite value representable =>
      obtain rfl : value = x := Option.some.inj valueIs
      exact ⟨representable, rfl⟩
  | infinite negative => cases valueIs
  | nan => cases valueIs

end Products

end BinaryFloats
