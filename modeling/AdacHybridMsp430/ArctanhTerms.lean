import AdacHybridMsp430.BinaryFloatScaling
import AdacHybridMsp430.ElementaryFunctions
import AdacHybridMsp430.FloatDecompositions

/-!
# The terms of the inverse hyperbolic tangent

`Arctanh` splits its argument into a number with few digits, from which the
arguments of the logarithms follow without rounding, and a rest that is a machine
number as well.
-/

namespace AdacHybridMsp430

namespace ElementaryFunctions

open BinaryFloats DecimalNumerals FloatAttributes

section Rounding

/-- The rest of a rounding is not larger than the number. -/
theorem abs_sub_roundHalfAway_le_abs (value : ℚ) :
    |value - roundHalfAway value| ≤ |value| := by
  by_cases zero : roundHalfAway value = 0
  · rw [zero, Int.cast_zero, sub_zero]
  · have half := abs_sub_roundHalfAway_le value
    have one : (1 : ℚ) ≤ |(roundHalfAway value : ℚ)| := by
      exact_mod_cast Int.one_le_abs zero
    have triangle :=
      abs_sub_abs_le_abs_sub (roundHalfAway value : ℚ) value
    rw [abs_sub_comm] at triangle
    linarith

end Rounding

section Split

variable {inst : Instance} {fuel : ℕ}

theorem instance_wide (inst : Instance) :
    (inst.format.precision : ℤ) < inst.format.maxExponent := by
  unfold Instance.format
  cases inst.package with
  | fatFlt => decide
  | fatLFlt => decide

theorem instance_normal (inst : Instance) :
    inst.format.minExponent + inst.format.precision ≤ 0 :=
  package_normal inst.package

/-- A small integer, divided by the power of two of the mantissa. -/
theorem representable_mul_unit {n e : ℤ}
    (size : |n| ≤ 2 ^ inst.format.precision)
    (lower : 1 - inst.format.precision ≤ e) (upper : e ≤ 0) :
    inst.format.Representable (n * 2 ^ e) := by
  have normal := instance_normal inst
  have wide := instance_wide inst
  apply representable_of_abs_le inst.format size (by omega)
  have sizeLe : |(n : ℚ)| ≤ 2 ^ inst.format.precision := by
    exact_mod_cast size
  have power : (2 : ℚ) ^ e ≤ 1 := zpow_le_one_of_nonpos₀ (by norm_num) upper
  calc |(n : ℚ) * 2 ^ e| = |(n : ℚ)| * 2 ^ e := by
        rw [abs_mul, abs_of_pos (show (0 : ℚ) < 2 ^ e by positivity)]
    _ ≤ 2 ^ inst.format.precision * 1 :=
        mul_le_mul sizeLe power (by positivity) (by positivity)
    _ = 2 ^ (inst.format.precision : ℤ) := by rw [mul_one, zpow_natCast]
    _ < 2 ^ inst.format.maxExponent :=
        zpow_lt_zpow_right₀ (by norm_num) wide

/-- The first scaling, which makes an integer part of the leading digits. -/
theorem scaleUp_exact (enough : inst.format.precision ≤ fuel) {x : ℚ}
    (xMachine : inst.format.Representable x) (less : |x| < 1) :
    ∃ up, scaling fuel x (machineMantissa inst.format - 1) = some up ∧
      up.value = x * 2 ^ (inst.format.precision - 1 : ℤ) ∧
      ∀ product ∈ up.products, inst.format.Representable product := by
  have precision := inst.format.precision_pos
  have wide := instance_wide inst
  have fuelEnough : (machineMantissa inst.format - 1).natAbs < fuel := by
    rw [machineMantissa]
    omega
  obtain ⟨up, scaled, value, products⟩ := scaling_spec x fuelEnough
  rw [machineMantissa] at value products
  refine ⟨up, scaled, value, ?_⟩
  intro product among
  obtain ⟨e, between, exact⟩ := products product among
  rw [Set.mem_uIcc] at between
  have shifted : product * 2 ^ (e - (inst.format.precision - 1)) = x := by
    rw [zpow_sub₀ (by norm_num), ← mul_div_assoc, exact,
      mul_div_cancel_right₀ _ (by positivity)]
  apply xMachine.of_scaled shifted _ (Or.inl (by omega))
  have productIs : product = x * 2 ^ ((inst.format.precision - 1) - e) := by
    rw [← shifted, mul_assoc, ← zpow_add₀ (by norm_num)]
    simp
  have power : (0 : ℚ) < 2 ^ ((inst.format.precision - 1 : ℤ) - e) := by
    positivity
  calc |product| = |x| * 2 ^ ((inst.format.precision - 1 : ℤ) - e) := by
        rw [productIs, abs_mul, abs_of_pos power]
    _ < 1 * 2 ^ ((inst.format.precision - 1 : ℤ) - e) :=
        mul_lt_mul_of_pos_right less power
    _ ≤ 2 ^ inst.format.maxExponent := by
        rw [one_mul]
        exact zpow_le_zpow_right₀ (by norm_num) (by omega)

/-- The second scaling. -/
theorem scaleDown_exact (enough : inst.format.precision ≤ fuel) {n : ℤ}
    (size : |n| ≤ 2 ^ inst.format.precision) :
    ∃ down, scaling fuel n (1 - machineMantissa inst.format) = some down ∧
      down.value = n * 2 ^ (1 - inst.format.precision : ℤ) ∧
      ∀ product ∈ down.products, inst.format.Representable product := by
  have precision := inst.format.precision_pos
  have fuelEnough : (1 - machineMantissa inst.format).natAbs < fuel := by
    rw [machineMantissa]
    omega
  obtain ⟨down, scaled, value, products⟩ := scaling_spec n fuelEnough
  rw [machineMantissa] at value products
  refine ⟨down, scaled, value, ?_⟩
  intro product among
  obtain ⟨e, between, exact⟩ := products product among
  rw [Set.mem_uIcc] at between
  have productIs : product = n * 2 ^ ((1 - inst.format.precision) - e) := by
    rw [zpow_sub₀ (by norm_num), ← mul_div_assoc, ← exact,
      mul_div_cancel_right₀ _ (by positivity)]
  rw [productIs]
  exact representable_mul_unit size (by omega) (by omega)

variable (inst) in
/-- A number with few digits near the argument. -/
structure Split (x : ℚ) (near : Computed) : Prop where
  exact : inst.format.Representable near.value
  products : ∀ product ∈ near.products, inst.format.Representable product
  above : inst.format.Representable (1 + near.value)
  below : inst.format.Representable (1 - near.value)
  inside : |near.value| ≤ 1 - 2 ^ (1 - inst.format.precision : ℤ)
  rest : inst.format.Representable (x - near.value)
  small : |x - near.value| ≤ 2 ^ (-inst.format.precision : ℤ)

/-- The leading digits of an argument are less than those of one. -/
theorem abs_leading_le {x : ℚ}
    (less : |x| < 1 - 2 ^ (-inst.format.precision : ℤ)) :
    |roundHalfAway (x * 2 ^ (inst.format.precision - 1 : ℤ))| ≤
      2 ^ (inst.format.precision - 1) - 1 := by
  have precision := inst.format.precision_pos
  have power : (0 : ℚ) < 2 ^ (inst.format.precision - 1 : ℤ) := by positivity
  have scaled : |x * 2 ^ (inst.format.precision - 1 : ℤ)| <
      2 ^ (inst.format.precision - 1 : ℤ) - 1 / 2 := by
    rw [abs_mul, abs_of_pos power]
    calc |x| * 2 ^ (inst.format.precision - 1 : ℤ) <
          (1 - 2 ^ (-inst.format.precision : ℤ)) *
            2 ^ (inst.format.precision - 1 : ℤ) :=
          mul_lt_mul_of_pos_right less power
      _ = 2 ^ (inst.format.precision - 1 : ℤ) - 1 / 2 := by
          rw [sub_mul, one_mul, ← zpow_add₀ (by norm_num),
            show -(inst.format.precision : ℤ) + (inst.format.precision - 1) = -1 by
              ring]
          norm_num
  have near := abs_sub_roundHalfAway_le (x * 2 ^ (inst.format.precision - 1 : ℤ))
  have triangle := abs_sub_abs_le_abs_sub
    (roundHalfAway (x * 2 ^ (inst.format.precision - 1 : ℤ)) : ℚ)
    (x * 2 ^ (inst.format.precision - 1 : ℤ))
  rw [abs_sub_comm] at triangle
  have natural : (inst.format.precision - 1 : ℤ) = (inst.format.precision - 1 : ℕ) := by
    omega
  rw [natural, zpow_natCast] at scaled triangle near ⊢
  have below : (|roundHalfAway (x * 2 ^ (inst.format.precision - 1))| : ℚ) <
      ((2 ^ (inst.format.precision - 1) : ℤ) : ℚ) := by
    push_cast
    linarith
  have integers : |roundHalfAway (x * 2 ^ (inst.format.precision - 1))| <
      2 ^ (inst.format.precision - 1) := by
    exact_mod_cast below
  omega

/-- The last place of the digits that are split off. -/
theorem unit_mul (precision : ℕ) :
    (2 : ℚ) ^ (precision - 1 : ℤ) * 2 ^ (1 - precision : ℤ) = 1 := by
  rw [← zpow_add₀ (by norm_num)]
  simp

theorem one_eq_unit {precision : ℕ} (positive : 0 < precision) :
    (1 : ℚ) = ((2 ^ (precision - 1) : ℤ) : ℚ) * 2 ^ (1 - precision : ℤ) := by
  have power : (2 : ℚ) ^ (precision - 1 : ℤ) = ((2 ^ (precision - 1) : ℤ) : ℚ) := by
    rw [show (precision - 1 : ℤ) = (precision - 1 : ℕ) by omega, zpow_natCast]
    push_cast
    rfl
  rw [← power, unit_mul]

theorem half_unit (precision : ℕ) :
    (2 : ℚ) ^ (-precision : ℤ) = 1 / 2 * 2 ^ (1 - precision : ℤ) := by
  rw [show -(precision : ℤ) = -1 + (1 - precision) by ring,
    zpow_add₀ (by norm_num)]
  norm_num

theorem abs_mul_unit (value : ℚ) (precision : ℕ) :
    |value * 2 ^ (1 - precision : ℤ)| = |value| * 2 ^ (1 - precision : ℤ) := by
  rw [abs_mul, abs_of_pos (show (0 : ℚ) < 2 ^ (1 - precision : ℤ) by positivity)]

theorem mul_unit_cancel (x : ℚ) (precision : ℕ) :
    x * 2 ^ (precision - 1 : ℤ) * 2 ^ (1 - precision : ℤ) = x := by
  rw [mul_assoc, unit_mul, mul_one]

/-- What the leading digits of a number leave is small. -/
theorem abs_rest_le (x : ℚ) (precision : ℕ) :
    |x - roundHalfAway (x * 2 ^ (precision - 1 : ℤ)) * 2 ^ (1 - precision : ℤ)| ≤
      2 ^ (-precision : ℤ) ∧
    |x - roundHalfAway (x * 2 ^ (precision - 1 : ℤ)) * 2 ^ (1 - precision : ℤ)| ≤
      |x| := by
  generalize scaled : x * 2 ^ (precision - 1 : ℤ) = value
  have xIs : x = value * 2 ^ (1 - precision : ℤ) := by
    rw [← scaled, mul_unit_cancel]
  have unit : (0 : ℚ) ≤ 2 ^ (1 - precision : ℤ) := by positivity
  rw [xIs, ← sub_mul, abs_mul_unit, abs_mul_unit, half_unit]
  constructor
  · exact mul_le_mul_of_nonneg_right (abs_sub_roundHalfAway_le value) unit
  · exact mul_le_mul_of_nonneg_right (abs_sub_roundHalfAway_le_abs value) unit

/-- What a number with a small integer for its leading digits leaves. -/
theorem split_of_digits {x : ℚ} {n : ℤ} {near : Computed}
    (xMachine : inst.format.Representable x)
    (rounded : n = roundHalfAway (x * 2 ^ (inst.format.precision - 1 : ℤ)))
    (digits : |n| ≤ 2 ^ (inst.format.precision - 1) - 1)
    (value : near.value = n * 2 ^ (1 - inst.format.precision : ℤ))
    (products : ∀ product ∈ near.products, inst.format.Representable product) :
    Split inst x near := by
  have precision := inst.format.precision_pos
  have double : (2 : ℤ) ^ inst.format.precision =
      2 * 2 ^ (inst.format.precision - 1) := by
    rw [← pow_succ']
    congr 1
    omega
  have one := one_eq_unit precision
  have unit : (0 : ℚ) < 2 ^ (1 - inst.format.precision : ℤ) := by positivity
  obtain ⟨digitsLower, digitsUpper⟩ := abs_le.mp digits
  have exact : inst.format.Representable near.value := by
    rw [value]
    exact representable_mul_unit (by omega) le_rfl (by omega)
  obtain ⟨small, restLe⟩ := abs_rest_le x inst.format.precision
  rw [← rounded, ← value] at small restLe
  refine ⟨exact, products, ?_, ?_, ?_, ?_, small⟩
  · have sum : 1 + near.value = ((2 ^ (inst.format.precision - 1) + n : ℤ) : ℚ) *
        2 ^ (1 - inst.format.precision : ℤ) := by
      rw [value, Int.cast_add, add_mul, ← one]
    rw [sum]
    exact representable_mul_unit (abs_le.mpr ⟨by omega, by omega⟩) le_rfl (by omega)
  · have difference : 1 - near.value =
        ((2 ^ (inst.format.precision - 1) - n : ℤ) : ℚ) *
          2 ^ (1 - inst.format.precision : ℤ) := by
      rw [value, Int.cast_sub, sub_mul, ← one]
    rw [difference]
    exact representable_mul_unit (abs_le.mpr ⟨by omega, by omega⟩) le_rfl (by omega)
  · have digitsLe : |(n : ℚ)| ≤
        ((2 ^ (inst.format.precision - 1) : ℤ) : ℚ) - 1 := by
      exact_mod_cast digits
    calc |near.value| = |(n : ℚ)| * 2 ^ (1 - inst.format.precision : ℤ) := by
          rw [value, abs_mul_unit]
      _ ≤ (((2 ^ (inst.format.precision - 1) : ℤ) : ℚ) - 1) *
          2 ^ (1 - inst.format.precision : ℤ) :=
          mul_le_mul_of_nonneg_right digitsLe unit.le
      _ = 1 - 2 ^ (1 - inst.format.precision : ℤ) := by
          rw [sub_mul, ← one, one_mul]
  · by_cases zero : n = 0
    · rw [value, zero, Int.cast_zero, zero_mul, sub_zero]
      exact xMachine
    · have leading : (1 : ℚ) ≤ |(n : ℚ)| := by
        exact_mod_cast Int.one_le_abs zero
      apply xMachine.combine exact ⟨1, -1, by push_cast; ring⟩ restLe
      calc |x - near.value| ≤ 1 / 2 * 2 ^ (1 - inst.format.precision : ℤ) :=
            half_unit _ ▸ small
        _ ≤ |(n : ℚ)| * 2 ^ (1 - inst.format.precision : ℤ) :=
            mul_le_mul_of_nonneg_right (by linarith) unit.le
        _ = |near.value| := by
            rw [value, abs_mul_unit]

theorem arctanhNear_spec (enough : inst.format.precision ≤ fuel) {x : ℚ}
    (xMachine : inst.format.Representable x)
    (less : |x| < 1 - 2 ^ (-inst.format.precision : ℤ)) :
    ∃ near, arctanhNear inst fuel x = some near ∧ Split inst x near := by
  have precision := inst.format.precision_pos
  have lastPlace : (0 : ℚ) < 2 ^ (-inst.format.precision : ℤ) := by positivity
  have digits := abs_leading_le less
  have double : (2 : ℤ) ^ (inst.format.precision - 1) ≤
      2 ^ inst.format.precision :=
    pow_le_pow_right₀ (by norm_num) (by omega)
  obtain ⟨up, upScaled, upValue, upProducts⟩ :=
    scaleUp_exact enough xMachine (by linarith)
  rw [← upValue] at digits
  have size : |roundHalfAway up.value| ≤ 2 ^ inst.format.precision := by
    omega
  obtain ⟨down, downScaled, downValue, downProducts⟩ :=
    scaleDown_exact enough size
  have integer : inst.format.Representable (roundHalfAway up.value) := by
    have whole := representable_mul_unit size (by omega) le_rfl
    simpa using whole
  refine ⟨⟨down.value, down.products ++ up.products⟩, ?_, ?_⟩
  · have kept : machine inst.format (roundHalfAway up.value) =
        roundHalfAway up.value :=
      nearest_of_representable integer
    simp only [arctanhNear, upScaled, kept, downScaled, Option.bind_eq_bind,
      Option.bind_some, pure]
  · refine split_of_digits xMachine (by rw [upValue]) digits downValue ?_
    intro product among
    rcases List.mem_append.mp among with below | above
    · exact downProducts product below
    · exact upProducts product above

end Split

section Terms

variable {inst : Instance} {fuel : ℕ}

variable (inst) in
theorem log_of_pos {x : ℚ} (positive : 0 < x) : ∃ value, log inst x = .ok value := by
  unfold log
  rw [if_neg positive.not_gt, if_neg positive.ne']
  split
  · exact ⟨_, rfl⟩
  · exact ⟨_, rfl⟩

theorem round_finite {value : ℚ} {exponent : ℤ}
    (minimum : inst.format.minExponent ≤ exponent)
    (maximum : exponent < inst.format.maxExponent) (le : |value| ≤ 2 ^ exponent) :
    (inst.format.round value).rational = some (inst.format.nearest value) := by
  have nearest : |inst.format.nearest value| ≤ 2 ^ exponent :=
    abs_nearest_le_two_zpow minimum le
  have range : |inst.format.nearest value| < 2 ^ inst.format.maxExponent :=
    nearest.trans_lt (zpow_lt_zpow_right₀ (by norm_num) maximum)
  rw [Format.round, dif_pos range]
  rfl

/-- The product of the arguments of the logarithms is not below the last place. -/
theorem product_bounds {a unit : ℚ} (inside : |a| ≤ 1 - unit) (positive : 0 < unit)
    (le : unit ≤ 1) : unit ≤ (1 + a) * (1 - a) ∧ (1 + a) * (1 - a) ≤ 1 := by
  obtain ⟨lower, upper⟩ := abs_le.mp inside
  constructor
  · have above : 0 ≤ (1 - unit - a) * (1 - unit + a) :=
      mul_nonneg (by linarith) (by linarith)
    nlinarith
  · nlinarith [sq_nonneg a]

/-- The correction of the difference of the logarithms. -/
theorem Split.correction {x : ℚ} {near : Computed} (split : Split inst x near) :
    ∃ correction,
      ((inst.format.round (x - near.value)).div
        (inst.format.round ((1 + near.value) * (1 - near.value)))).rational =
          some correction ∧ |correction| ≤ 1 / 2 := by
  have precision := inst.format.precision_pos
  have normal := instance_normal inst
  have maximum := inst.format.maxExponent_pos
  have unit : (0 : ℚ) < 2 ^ (1 - inst.format.precision : ℤ) := by positivity
  have unitLe : (2 : ℚ) ^ (1 - inst.format.precision : ℤ) ≤ 1 :=
    zpow_le_one_of_nonpos₀ (by norm_num) (by omega)
  obtain ⟨lower, upper⟩ := product_bounds split.inside unit unitLe
  generalize product : (1 + near.value) * (1 - near.value) = d at lower upper ⊢
  have dNonneg : 0 ≤ d := unit.le.trans lower
  have dRational := round_finite inst.format.minExponent_nonpos maximum
    (show |d| ≤ 2 ^ (0 : ℤ) by rwa [abs_of_nonneg dNonneg, zpow_zero])
  have dLarge := two_zpow_le_abs_nearest
    (show inst.format.minExponent ≤ 1 - inst.format.precision by omega)
    (lower.trans (le_abs_self d))
  have dPos : 0 < |inst.format.nearest d| := unit.trans_le dLarge
  have rest : (inst.format.round (x - near.value)).rational =
      some (x - near.value) := by
    rw [round_of_representable split.rest]
    rfl
  rw [Value.div_eq_round rest dRational (abs_pos.mp dPos)]
  have ratio : |(x - near.value) / inst.format.nearest d| ≤ 2 ^ (-1 : ℤ) := by
    rw [abs_div, div_le_iff₀ dPos, zpow_neg_one]
    calc |x - near.value| ≤ 2 ^ (-inst.format.precision : ℤ) := split.small
      _ = 2⁻¹ * 2 ^ (1 - inst.format.precision : ℤ) := by
          rw [half_unit, one_div]
      _ ≤ 2⁻¹ * |inst.format.nearest d| :=
          mul_le_mul_of_nonneg_left dLarge (by norm_num)
  refine ⟨_, round_finite (by omega) (by omega) ratio, ?_⟩
  calc |inst.format.nearest ((x - near.value) / inst.format.nearest d)| ≤
        2 ^ (-1 : ℤ) := abs_nearest_le_two_zpow (by omega) ratio
    _ = 1 / 2 := by norm_num

/-- `Arctanh` raises an exception exactly at and outside of the poles.  Between
them both logarithms are taken of positive machine numbers, and nothing but the
operations of the last line is rounded. -/
theorem arctanhs (enough : inst.format.precision ≤ fuel) {x : ℚ}
    (xMachine : inst.format.Representable x) :
    (|x| = 1 → arctanh inst fuel x = some (.error .constraintError)) ∧
    (1 < |x| → arctanh inst fuel x = some (.error .argumentError)) ∧
    (|x| = 1 - 2 ^ (-inst.format.precision : ℤ) →
      arctanh inst fuel x =
        some (.ok (inst.format.round (copySign (arctanhBound inst) x)))) ∧
    (|x| < 1 → |x| ≠ 1 - 2 ^ (-inst.format.precision : ℤ) →
      ∃ near above below correction,
        arctanhNear inst fuel x = some near ∧ Split inst x near ∧
        log inst (1 + near.value) = .ok above ∧
        log inst (1 - near.value) = .ok below ∧
        correction = (inst.format.round (x - near.value)).div
          (inst.format.round ((1 + near.value) * (1 - near.value))) ∧
        (∃ exact, correction.rational = some exact ∧ |exact| ≤ 1 / 2) ∧
        arctanh inst fuel x =
          some (.ok (((inst.format.round (1 / 2)).mul (above.sub below)).add
            correction))) := by
  have precision := inst.format.precision_pos
  have normal := instance_normal inst
  have maximum := inst.format.maxExponent_pos
  have lastPlace : (0 : ℚ) < 2 ^ (-inst.format.precision : ℤ) := by positivity
  have power : machine inst.format (2 ^ (-machineMantissa inst.format)) =
      2 ^ (-inst.format.precision : ℤ) := by
    rw [machineMantissa]
    exact nearest_of_representable (representable_two_zpow (by omega) (by omega))
  have threshold : machine inst.format (1 - 2 ^ (-inst.format.precision : ℤ)) =
      1 - 2 ^ (-inst.format.precision : ℤ) :=
    nearest_of_representable (representable_one_sub normal)
  unfold arctanh
  simp only [power, threshold]
  refine ⟨fun atPole => if_pos atPole, ?_, ?_, ?_⟩
  · intro outside
    rw [if_neg outside.ne', if_pos (by linarith), if_pos outside.le]
  · intro last
    rw [last, if_neg (by linarith), if_pos le_rfl, if_neg (by linarith)]
  · intro less notLast
    have below : |x| < 1 - 2 ^ (-inst.format.precision : ℤ) :=
      (xMachine.le_one_sub normal less).lt_of_ne notLast
    rw [if_neg less.ne, if_neg below.not_ge]
    obtain ⟨near, found, split⟩ := arctanhNear_spec enough xMachine below
    have unit : (0 : ℚ) < 2 ^ (1 - inst.format.precision : ℤ) := by positivity
    obtain ⟨aLower, aUpper⟩ := abs_le.mp split.inside
    obtain ⟨above, aboveIs⟩ := log_of_pos inst (show 0 < 1 + near.value by linarith)
    obtain ⟨lower, lowerIs⟩ := log_of_pos inst (show 0 < 1 - near.value by linarith)
    refine ⟨near, above, lower, _, found, split, aboveIs, lowerIs, rfl,
      split.correction, ?_⟩
    have kept : ∀ {value : ℚ}, inst.format.Representable value →
        machine inst.format value = value := nearest_of_representable
    simp only [found, Option.map_some, kept split.above, kept split.below,
      kept split.rest, aboveIs, lowerIs]
    rfl

/-- An instance for `Long_Float`, with the values of the functions at a right angle
and of the logarithms that the argument one half needs. -/
def sample : Instance where
  package := .fatLFlt
  sqrtEpsilon := 2 ^ (-26 : ℤ)
  sqrtEpsilon_pos := by positivity
  auxSin _ := 1
  auxCos _ := 0
  auxLog x := if x = 3 / 2 then 0.4054651081081644 else -0.6931471805599453

theorem arctanhs_half :
    (|(1 / 2 : ℚ)| = 1 →
      arctanh sample 53 (1 / 2) = some (.error .constraintError)) ∧
    (1 < |(1 / 2 : ℚ)| →
      arctanh sample 53 (1 / 2) = some (.error .argumentError)) ∧
    (|(1 / 2 : ℚ)| = 1 - 2 ^ (-sample.format.precision : ℤ) →
      arctanh sample 53 (1 / 2) =
        some (.ok (sample.format.round (copySign (arctanhBound sample) (1 / 2))))) ∧
    (|(1 / 2 : ℚ)| < 1 →
      |(1 / 2 : ℚ)| ≠ 1 - 2 ^ (-sample.format.precision : ℤ) →
      ∃ near above below correction,
        arctanhNear sample 53 (1 / 2) = some near ∧ Split sample (1 / 2) near ∧
        log sample (1 + near.value) = .ok above ∧
        log sample (1 - near.value) = .ok below ∧
        correction = (sample.format.round (1 / 2 - near.value)).div
          (sample.format.round ((1 + near.value) * (1 - near.value))) ∧
        (∃ exact, correction.rational = some exact ∧ |exact| ≤ 1 / 2) ∧
        arctanh sample 53 (1 / 2) =
          some (.ok (((sample.format.round (1 / 2)).mul (above.sub below)).add
            correction))) := by
  have half : sample.format.Representable (1 / 2) := by
    have power : sample.format.Representable (2 ^ (-1 : ℤ)) :=
      representable_two_zpow (by decide) (by decide)
    rwa [zpow_neg_one, ← one_div] at power
  exact arctanhs (by decide) half

end Terms

end ElementaryFunctions

end AdacHybridMsp430
