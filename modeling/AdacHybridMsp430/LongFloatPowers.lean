import AdacHybridMsp430.Exponentiation

/-!
# Powers of long floating-point numbers

`Exn_Long_Float` computes the powers from the fifth on in `Float`.  It returns
an exact power just when that power is a machine number of `Float`, whatever
`Long_Float` could hold.
-/

namespace AdacHybridMsp430

namespace Exponentiation

open BinaryFloats Target

/-- The power, and the squares and partial products on the way to it, are
machine numbers of `Long_Float`. -/
structure IntermediatesExact (base : ℚ) (n : ℕ) : Prop where
  power : longFloatFormat.Representable (base ^ n)
  squares : ∀ k, 2 ^ k ≤ n → longFloatFormat.Representable (base ^ 2 ^ k)
  products : ∀ k, 2 ^ k ≤ n →
    longFloatFormat.Representable (base ^ (n % 2 ^ (k + 1)))

/-- `Exn_Long_Float (Base, Right)` returns a finite value, the exact power. -/
def ReturnsPower (base : ℚ) (representable : longFloatFormat.Representable base)
    (right : Integer) : Prop :=
  ∃ fuel run,
    exnLongFloat machineTypes fuel (.finite base representable) right =
        some run ∧
      run.value.rational = some (base ^ right.toNat)

section Loop

variable {format : Format} {base : ℚ} {n : ℕ}

/-- The variables of `Exp` in front of a pass: what is left to multiply onto
the result is a power of the factor. -/
structure Exact (format : Format) (base : ℚ) (n : ℕ)
    (state : ExpState (Value format)) : Prop where
  powers : ∃ i j, state.result.rational = some (base ^ i) ∧
    state.factor.rational = some (base ^ j) ∧ i + j * state.exp = n
  positive : 0 < state.exp

/-- The product that a pass multiplies onto the result. -/
theorem Exact.result {state : ExpState (Value format)}
    (exact : Exact format base n state)
    (representable : ∀ i ≤ n, format.Representable (base ^ i)) :
    ∃ i j,
      (if state.exp % 2 ≠ 0 then state.result.mul state.factor
        else state.result).rational = some (base ^ i) ∧
      state.factor.rational = some (base ^ j) ∧
      i + j * (2 * (state.exp / 2)) = n := by
  obtain ⟨i, j, result, factor, split⟩ := exact.powers
  have halves := Nat.div_add_mod state.exp 2
  by_cases odd : state.exp % 2 ≠ 0
  · rw [if_pos odd]
    have remainder : state.exp % 2 = 1 := by
      omega
    rw [remainder] at halves
    rw [← halves, mul_add, mul_one] at split
    refine ⟨i + j, j, ?_, factor, by omega⟩
    rw [pow_add]
    apply Value.rational_mul result factor
    rw [← pow_add]
    exact representable _ (by omega)
  · rw [if_neg odd]
    have remainder : state.exp % 2 = 0 := by
      omega
    rw [remainder, add_zero] at halves
    rw [← halves] at split
    exact ⟨i, j, result, factor, split⟩

/-- The loop of `Exp` is exact if all the lower powers are machine numbers. -/
theorem expLoop_exact {state : ExpState (Value format)}
    (exact : Exact format base n state)
    (representable : ∀ i ≤ n, format.Representable (base ^ i)) {fuel : ℕ}
    (enough : state.exp ≤ fuel) :
    ∃ last, expLoop (floatType format) fuel state = some last ∧
      last.result.rational = some (base ^ n) := by
  induction fuel generalizing state with
  | zero => exact absurd exact.positive (by omega)
  | succ fuel ih =>
      have positive := exact.positive
      obtain ⟨i, j, result, factor, split⟩ := exact.result representable
      rw [expLoop]
      by_cases done : state.exp / 2 = 0
      · rw [if_pos done]
        rw [done, mul_zero, mul_zero, add_zero] at split
        exact ⟨_, rfl, split ▸ result⟩
      · rw [if_neg done]
        apply ih _ (by dsimp only; omega)
        refine ⟨⟨i, j + j, result, ?_, ?_⟩, Nat.pos_of_ne_zero done⟩
        · rw [pow_add]
          apply Value.rational_mul factor factor
          rw [← pow_add]
          have one : 1 ≤ state.exp / 2 := Nat.pos_of_ne_zero done
          have bound : j * (2 * 1) ≤ j * (2 * (state.exp / 2)) :=
            Nat.mul_le_mul_left j (Nat.mul_le_mul_left 2 one)
          exact representable _ (by omega)
        · rw [← split]
          ring

/-- `Exp` is exact if the power is a machine number. -/
theorem exp_exact {other : Format} (dyadic : other.Representable base)
    (positive : 0 < n) (representable : format.Representable (base ^ n))
    {left : Value format} (leftIs : left.rational = some base) :
    ∃ run, exp (floatType format) n left n = some run ∧
      run.value.rational = some (base ^ n) := by
  have start : Exact format base n ⟨(floatType format).one, left, n, 0⟩ :=
    ⟨⟨0, 1, by rw [pow_zero]; rfl, by rwa [pow_one], by simp⟩, positive⟩
  obtain ⟨last, returned, result⟩ := expLoop_exact start
    (fun i le => dyadic.pow_of_le representable le) le_rfl
  exact ⟨_, by rw [exp, returned]; rfl, result⟩

end Loop

section Returns

variable {base : ℚ} (rep : longFloatFormat.Representable base)

/-- The exponents that the case statement lists are computed in
`Long_Float`. -/
theorem returnsPower_of_le_four {right : Integer} (small : right.toNat ≤ 4)
    (exact : IntermediatesExact base right.toNat) :
    ReturnsPower base rep right := by
  have nonneg : 0 ≤ right.toInt := by
    rw [BitVec.toInt_eq_toNat_cond, if_pos (by omega)]
    omega
  have listed := (natAbs_le_four_iff nonneg).mp (by
    rw [BitVec.toInt_eq_toNat_cond, if_pos (by omega)]
    simpa using small)
  have left : (Value.finite base rep).rational = some base := rfl
  have square : right.toNat ∈ [2, 3, 4] →
      ((Value.finite base rep).mul (.finite base rep)).rational =
        some (base * base) := by
    intro listed
    have representable := exact.squares 1 (by
      simp only [List.mem_cons, List.not_mem_nil, or_false] at listed
      omega)
    apply Value.rational_mul left left
    rwa [pow_one, pow_two] at representable
  rcases listed with rfl | rfl | rfl | rfl | rfl
  · exact ⟨1, _, rfl, by rw [show (0 : Integer).toNat = 0 from rfl, pow_zero]; rfl⟩
  · exact ⟨1, _, rfl, by
      rw [show (1 : Integer).toNat = 1 from rfl, pow_one]
      exact left⟩
  · refine ⟨1, _, rfl, ?_⟩
    rw [show (2 : Integer).toNat = 2 from rfl, pow_two]
    exact square (by decide)
  · refine ⟨1, _, rfl, ?_⟩
    have power := exact.power
    rw [show (3 : Integer).toNat = 3 from rfl, pow_succ, pow_two] at power ⊢
    exact Value.rational_mul (square (by decide)) left power
  · refine ⟨1, _, rfl, ?_⟩
    have power := exact.power
    have fourth : base ^ 4 = base * base * (base * base) := by
      ring
    rw [show (4 : Integer).toNat = 4 from rfl, fourth] at power ⊢
    exact Value.rational_mul (square (by decide)) (square (by decide)) power

/-- The other powers are computed in `Float`. -/
theorem exnLongFloat_of_four_lt (fuel : ℕ) {right : Integer}
    (nonneg : 0 ≤ right.toInt) (large : 4 < right.toNat) :
    exnLongFloat machineTypes (fuel + 1) (.finite base rep) right =
      (exp (floatType floatFormat) fuel (floatFormat.round base)
          right.toNat).map fun run =>
        ⟨run.value.convert longFloatFormat, run.calls, run.passes⟩ := by
  rw [exnLongFloat, exn_others _ _ fuel _ nonneg large, Option.map_map]
  rfl

/-- If the power is a machine number of `Float`, it is returned. -/
theorem returnsPower_of_float {right : Integer} (nonneg : 0 ≤ right.toInt)
    (large : 4 < right.toNat)
    (representable : floatFormat.Representable (base ^ right.toNat)) :
    ReturnsPower base rep right := by
  have left : (floatFormat.round base).rational = some base := by
    have single := rep.pow_of_le representable (show 1 ≤ right.toNat by omega)
    rw [pow_one] at single
    rw [round_of_representable single]
    rfl
  obtain ⟨run, returned, value⟩ :=
    exp_exact rep (by omega) representable left
  refine ⟨right.toNat + 1,
    ⟨run.value.convert longFloatFormat, run.calls, run.passes⟩, ?_, ?_⟩
  · rw [exnLongFloat_of_four_lt rep _ nonneg large, returned]
    rfl
  · exact Value.rational_convert value
      (representable.mono (by decide) (by decide) (by decide))

/-- If a power from the fifth on is returned, it is a machine number of
`Float`. -/
theorem float_of_returnsPower {right : Integer} (nonneg : 0 ≤ right.toInt)
    (large : 4 < right.toNat) (returns : ReturnsPower base rep right) :
    floatFormat.Representable (base ^ right.toNat) := by
  obtain ⟨fuel, run, returned, value⟩ := returns
  cases fuel with
  | zero => cases returned
  | succ fuel =>
      rw [exnLongFloat_of_four_lt rep fuel nonneg large,
        Option.map_eq_some_iff] at returned
      obtain ⟨inner, _, rfl⟩ := returned
      have exact : inner.value.rational = some (base ^ right.toNat) :=
        Value.rational_of_convert (by decide) (by decide) (by decide) value
      exact Value.representable_of_rational exact

end Returns

/-- Where `Long_Float` holds the power and the intermediate ones, the exact
power is returned for the exponents up to 4, and above just where `Float` holds
the power as well. -/
theorem returnsPower_iff (base : ℚ)
    (rep : longFloatFormat.Representable base) (right : Integer)
    (nonneg : 0 ≤ right.toInt)
    (exact : IntermediatesExact base right.toNat) :
    ReturnsPower base rep right ↔
      right.toNat ≤ 4 ∨ floatFormat.Representable (base ^ right.toNat) := by
  rcases le_or_gt right.toNat 4 with small | large
  · exact iff_of_true (returnsPower_of_le_four rep small exact) (Or.inl small)
  · constructor
    · exact fun returns =>
        Or.inr (float_of_returnsPower rep nonneg large returns)
    · rintro (small | representable)
      · omega
      · exact returnsPower_of_float rep nonneg large representable

/-- `Long_Float` holds the powers of an integer up to its precision. -/
theorem intermediatesExact_of_lt {base : ℤ} {n : ℕ} (one : 1 ≤ |base|)
    (small : |base| ^ n < 2 ^ 53) : IntermediatesExact base n := by
  have lower : ∀ i ≤ n, longFloatFormat.Representable ((base : ℚ) ^ i) := by
    intro i le
    have size : |base ^ i| < 2 ^ 53 := by
      rw [abs_pow]
      exact (pow_le_pow_right₀ one le).trans_lt small
    have cast : |((base ^ i : ℤ) : ℚ)| < 2 ^ (53 : ℤ) := by
      exact_mod_cast size
    rw [← Int.cast_pow]
    apply representable_intCast size
    exact cast.trans_le (zpow_le_zpow_right₀ (by norm_num) (by decide))
  exact
    { power := lower n le_rfl
      squares := fun k le => lower _ le
      products := fun k _ => lower _ (Nat.mod_le _ _) }

theorem representable_three : longFloatFormat.Representable ((3 : ℤ) : ℚ) := by
  have exact : IntermediatesExact ((3 : ℤ) : ℚ) 1 :=
    intermediatesExact_of_lt (by decide) (by decide)
  rw [← pow_one ((3 : ℤ) : ℚ)]
  exact exact.power

/-- `3.0 ** 5` has few enough bits for `Float`. -/
theorem returnsPower_three_iff :
    ReturnsPower ((3 : ℤ) : ℚ) representable_three 5 ↔
      (5 : Integer).toNat ≤ 4 ∨
        floatFormat.Representable (((3 : ℤ) : ℚ) ^ (5 : Integer).toNat) :=
  returnsPower_iff _ representable_three 5 (by decide)
    (intermediatesExact_of_lt (by decide) (by decide))

/-- `3.0 ** 16` has 26 significant bits. -/
theorem not_returnsPower_three :
    IntermediatesExact ((3 : ℤ) : ℚ) (16 : Integer).toNat ∧
      ¬ ReturnsPower ((3 : ℤ) : ℚ) representable_three 16 := by
  refine ⟨intermediatesExact_of_lt (by decide) (by decide), ?_⟩
  intro returns
  have representable := float_of_returnsPower representable_three (by decide)
    (by decide) returns
  have written : ((3 : ℤ) : ℚ) ^ (16 : Integer).toNat =
      ((43046721 : ℤ) : ℚ) * 2 ^ (0 : ℤ) := by
    rw [show (16 : Integer).toNat = 16 from rfl]
    norm_num
  rw [written, representable_odd_iff (by decide)] at representable
  exact absurd representable.1 (by decide)

end Exponentiation

end AdacHybridMsp430
