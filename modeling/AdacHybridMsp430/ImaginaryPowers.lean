import AdacHybridMsp430.GaussianPowers
import AdacHybridMsp430.LongFloatPowers

/-!
# Powers of imaginary numbers

The operator for imaginary numbers takes the power of a real number and turns it by
the exponent.  On integers it agrees with the operator for complex numbers.
-/

namespace AdacHybridMsp430

namespace ComplexTypes

open BinaryFloats Exponentiation Target

section Powers

variable {format : Format} {base : ℚ} {left : Value format}

/-- The exponents that the case statement lists are computed without the loop. -/
theorem exn_listed (leftIs : left.rational = some base)
    (others : ℕ → Value format → ℕ → Option (Run (Value format))) (fuel : ℕ)
    {right : Integer} (nonneg : 0 ≤ right.toInt) (small : right.toInt.natAbs ≤ 4)
    (machine : ∀ i ≤ right.toInt.natAbs, format.Representable (base ^ i)) :
    ∃ run, exn (floatType format) others (fuel + 1) left right = some run ∧
      run.value.rational = some (base ^ right.toInt.natAbs) := by
  have square : 2 ≤ right.toInt.natAbs →
      (left.mul left).rational = some (base * base) := by
    intro two
    have representable := machine 2 two
    rw [sq] at representable
    exact Value.rational_mul leftIs leftIs representable
  rcases (natAbs_le_four_iff nonneg).mp small with rfl | rfl | rfl | rfl | rfl
  · exact ⟨_, rfl, by rw [show (0 : Integer).toInt.natAbs = 0 from rfl, pow_zero]; rfl⟩
  · exact ⟨_, rfl, by
      rw [show (1 : Integer).toInt.natAbs = 1 from rfl, pow_one]
      exact leftIs⟩
  · refine ⟨_, rfl, ?_⟩
    rw [show (2 : Integer).toInt.natAbs = 2 from rfl, sq]
    exact square (by decide)
  · refine ⟨_, rfl, ?_⟩
    have representable := machine 3 (by decide)
    rw [show (3 : Integer).toInt.natAbs = 3 from rfl]
    rw [pow_succ, sq] at representable ⊢
    exact Value.rational_mul (square (by decide)) leftIs representable
  · refine ⟨_, rfl, ?_⟩
    have representable := machine 4 (by decide)
    have fourth : base ^ 4 = base * base * (base * base) := by
      ring
    rw [show (4 : Integer).toInt.natAbs = 4 from rfl]
    rw [fourth] at representable ⊢
    exact Value.rational_mul (square (by decide)) (square (by decide)) representable

/-- `Exn_Float` is exact as long as the lower powers are machine numbers. -/
theorem exnFloat_exact {base : ℚ} {left : Value floatFormat}
    (leftIs : left.rational = some base) {right : Integer} (nonneg : 0 ≤ right.toInt)
    (machine : ∀ i ≤ right.toInt.natAbs, floatFormat.Representable (base ^ i)) :
    ∃ run, exnFloat machineTypes (right.toInt.natAbs + 1) left right = some run ∧
      run.value.rational = some (base ^ right.toInt.natAbs) := by
  rcases le_or_gt right.toInt.natAbs 4 with small | large
  · exact exn_listed leftIs _ _ nonneg small machine
  · have natAbs := natAbs_toInt nonneg
    rw [natAbs] at large machine ⊢
    obtain ⟨run, returned, value⟩ := exp_exact
      (Value.representable_of_rational leftIs) (by omega) (machine _ le_rfl) leftIs
    refine ⟨⟨run.value, run.calls, run.passes⟩, ?_, value⟩
    rw [exnFloat, exn_others _ _ _ _ nonneg large]
    exact congrArg (Option.map _) returned

end Powers

section Turns

/-- A real number after so many quarter turns. -/
def turned (m : ℤ) (turns : ℕ) : Gaussian :=
  if turns % 4 = 0 then ⟨m, 0⟩
  else if turns % 4 = 1 then ⟨0, m⟩
  else if turns % 4 = 2 then ⟨-m, 0⟩
  else ⟨0, -m⟩

theorem imaginary_pow (b : ℤ) (n : ℕ) : (⟨0, b⟩ : Gaussian) ^ n = turned (b ^ n) n := by
  induction n with
  | zero =>
      rw [pow_zero, pow_zero]
      rfl
  | succ n ih =>
      have digits : n % 4 = 0 ∨ n % 4 = 1 ∨ n % 4 = 2 ∨ n % 4 = 3 := by
        omega
      rw [pow_succ, ih, pow_succ]
      rcases digits with digit | digit | digit | digit
      · have next : (n + 1) % 4 = 1 := by omega
        simp [turned, digit, next, Zsqrtd.ext_iff]
      · have next : (n + 1) % 4 = 2 := by omega
        simp [turned, digit, next, Zsqrtd.ext_iff]
      · have next : (n + 1) % 4 = 3 := by omega
        simp [turned, digit, next, Zsqrtd.ext_iff]
      · have next : (n + 1) % 4 = 0 := by omega
        simp [turned, digit, next, Zsqrtd.ext_iff]

theorem smod_four {right : Integer} (nonneg : 0 ≤ right.toInt) :
    (right.smod 4).toInt = ((right.toInt.natAbs % 4 : ℕ) : ℤ) := by
  have four : (4 : Integer).toInt = 4 := rfl
  rw [BitVec.toInt_smod, four, Int.fmod_eq_emod_of_nonneg _ (by decide)]
  omega

/-- What is returned for a real power. -/
theorem imaginaryPower_isGaussian {fuel : ℕ} {left : Value floatFormat}
    {right : Integer} (nonneg : 0 ≤ right.toInt)
    {run : Run (Value floatFormat)}
    (returned : exnFloat machineTypes fuel left right = some run) {m : ℤ}
    (value : run.value.rational = some (m : ℚ)) :
    ∃ result, imaginaryPower fuel left right = some result ∧
      IsGaussian result (turned m right.toInt.natAbs) := by
  have smod := smod_four nonneg
  have negIs := Value.rational_neg value
  rw [← Int.cast_neg] at negIs
  have digits : right.toInt.natAbs % 4 = 0 ∨ right.toInt.natAbs % 4 = 1 ∨
      right.toInt.natAbs % 4 = 2 ∨ right.toInt.natAbs % 4 = 3 := by
    omega
  rw [imaginaryPower, returned, Option.map_some]
  refine ⟨_, rfl, ?_⟩
  have zeroIs : (zero : Value floatFormat).rational = some ((0 : ℤ) : ℚ) := by
    simp [zero, Value.rational]
  rcases digits with digit | digit | digit | digit <;> rw [digit] at smod
  · have turn : right.smod 4 = 0 := BitVec.toInt_inj.mp smod
    simp only [turn, turned, digit]
    exact ⟨value, zeroIs⟩
  · have turn : right.smod 4 = 1 := BitVec.toInt_inj.mp smod
    simp only [turn, turned, digit]
    exact ⟨zeroIs, value⟩
  · have turn : right.smod 4 = 2 := BitVec.toInt_inj.mp smod
    simp only [turn, turned, digit]
    exact ⟨negIs, zeroIs⟩
  · have turn : right.smod 4 = 3 := BitVec.toInt_inj.mp smod
    simp only [turn, turned, digit]
    exact ⟨zeroIs, negIs⟩

end Turns

/-- The power of an imaginary integer is exact as long as it does not exceed the
precision of `Float`, and is what the operator for complex numbers returns. -/
theorem imaginaryPowers {left : Value floatFormat} {b : ℤ}
    (leftIs : left.rational = some (b : ℚ)) {right : Integer}
    (nonneg : 0 ≤ right.toInt)
    (bounded : |b| ^ right.toInt.natAbs ≤ 2 ^ complexTypes.format.precision) :
    ∃ result, imaginaryPower (right.toInt.natAbs + 1) left right = some result ∧
      IsGaussian result (⟨0, b⟩ ^ right.toInt.natAbs) ∧
      power complexTypes (right.toInt.natAbs + 1) ⟨zero, left⟩ right = some result := by
  have one : (1 : ℤ) ≤ 2 ^ complexTypes.format.precision := one_le_pow₀ (by norm_num)
  have machine : ∀ i ≤ right.toInt.natAbs, floatFormat.Representable ((b : ℚ) ^ i) := by
    intro i le
    rw [← Int.cast_pow]
    apply representable_of_abs_le_precision complexTypes.wide
    rw [abs_pow]
    exact pow_le_of_pow_le (abs_nonneg b) one bounded le
  have norm : (⟨0, b⟩ : Gaussian).norm ^ right.toInt.natAbs ≤
      2 ^ (2 * complexTypes.format.precision) := by
    have square : (⟨0, b⟩ : Gaussian).norm = |b| ^ 2 := by
      rw [norm_eq, sq_abs]
      ring
    rw [square, ← pow_mul, Nat.mul_comm, pow_mul, Nat.mul_comm, pow_mul]
    exact pow_le_pow_left₀ (by positivity) bounded 2
  obtain ⟨run, returned, value⟩ := exnFloat_exact leftIs nonneg machine
  rw [← Int.cast_pow] at value
  obtain ⟨result, isResult, exact⟩ := imaginaryPower_isGaussian nonneg returned value
  rw [← imaginary_pow] at exact
  have complex : IsGaussian ⟨zero, left⟩ (⟨0, b⟩ : Gaussian) :=
    ⟨by simp [zero, Value.rational], leftIs⟩
  obtain ⟨state, ends, same⟩ :=
    powerLoop_spec norm complex rfl (Nat.lt_succ_self right.toInt.natAbs)
  refine ⟨result, isResult, exact, (congrArg (Option.map _) ends).trans ?_⟩
  exact congrArg some ((if_pos nonneg).trans (same.eq exact))

/-- `(3.0 * i) ** 5`. -/
theorem imaginaryPowers_three :
    ∃ result, imaginaryPower 6 (sample 0 3 (by decide) (by decide)).im 5 = some result ∧
      IsGaussian result ⟨0, 243⟩ := by
  have leftIs : (sample 0 3 (by decide) (by decide)).im.rational = some ((3 : ℤ) : ℚ) :=
    rfl
  obtain ⟨result, returned, exact, -⟩ :=
    imaginaryPowers leftIs (show 0 ≤ (5 : Integer).toInt by decide) (by decide)
  exact ⟨result, returned, exact⟩

end ComplexTypes

end AdacHybridMsp430
