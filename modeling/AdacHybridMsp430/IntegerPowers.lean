import AdacHybridMsp430.BinaryPowers
import AdacHybridMsp430.RuntimeSystem
import AdacHybridMsp430.SignedWords
import Mathlib.Data.Nat.ModEq

/-!
# Exponentiation of integers

`System.Exp_Int` and `System.Exp_LLI`, whose multiplications are checked, and
`System.Exp_Mod`, which multiplies in a double width.
-/

namespace AdacHybridMsp430

namespace IntegerPowers

open BinaryPowers SignedWords Target

section Signed

variable {width : ℕ}

/-- The variables `Result` and `Factor`. -/
structure Variables (width : ℕ) where
  result : BitVec width
  factor : BitVec width

def multiply (state : Variables width) : Option (Variables width) :=
  (checkedMul state.result state.factor).map fun result =>
    { state with result }

def square (state : Variables width) : Option (Variables width) :=
  (checkedMul state.factor state.factor).map fun factor =>
    { state with factor }

/-- The common text of the two functions.  A check that fails raises
`Constraint_Error`, which is `none`. -/
def exp (left : BitVec width) (right : ℕ) : Option (BitVec width) :=
  if right ≠ 0 then
    (loop multiply square ⟨1, left⟩ right).map Variables.result
  else some 1

/-- `Exp_Integer`. -/
def expInteger (left : Integer) (right : ℕ) : Option Integer :=
  exp left right

/-- `Exp_Long_Long_Integer`. -/
def expLongLongInteger (left : LongLongInteger) (right : ℕ) :
    Option LongLongInteger :=
  exp left right

/-- What is left to multiply. -/
def Variables.power (state : Variables width) (exp : ℕ) : ℤ :=
  state.result.toInt * state.factor.toInt ^ exp

/-- The result vanishes only with the factor. -/
def Variables.Coherent (state : Variables width) : Prop :=
  state.result.toInt = 0 → state.factor.toInt = 0

theorem power_odd (state : Variables width) (exp : ℕ) :
    state.power (2 * exp + 1) =
      state.result.toInt * state.factor.toInt * state.factor.toInt ^ (2 * exp) := by
  rw [Variables.power]
  ring

theorem power_even (state : Variables width) (exp : ℕ) :
    state.power (2 * exp) =
      state.result.toInt * (state.factor.toInt * state.factor.toInt) ^ exp := by
  rw [Variables.power, pow_mul, sq]

theorem multiply_eq_some {state next : Variables width} (positive : 0 < width)
    (multiplied : multiply state = some next) :
    next.result.toInt = state.result.toInt * state.factor.toInt ∧
      next.factor = state.factor := by
  simp only [multiply, checkedMul, Option.map_eq_some_iff,
    Option.ite_none_right_eq_some] at multiplied
  obtain ⟨result, ⟨range, returned⟩, rfl⟩ := multiplied
  rw [← Option.some_inj.mp returned]
  exact ⟨toInt_mul positive range, rfl⟩

theorem square_eq_some {state next : Variables width} (positive : 0 < width)
    (squared : square state = some next) :
    next.result = state.result ∧
      next.factor.toInt = state.factor.toInt * state.factor.toInt := by
  simp only [square, checkedMul, Option.map_eq_some_iff,
    Option.ite_none_right_eq_some] at squared
  obtain ⟨factor, ⟨range, returned⟩, rfl⟩ := squared
  rw [← Option.some_inj.mp returned]
  exact ⟨rfl, toInt_mul positive range⟩

theorem multiply_of_inRange {state : Variables width}
    (range : InRange width (state.result.toInt * state.factor.toInt)) :
    ∃ next, multiply state = some next := by
  rw [multiply, checkedMul, if_pos range]
  exact ⟨_, rfl⟩

theorem square_of_inRange {state : Variables width}
    (range : InRange width (state.factor.toInt * state.factor.toInt)) :
    ∃ next, square state = some next := by
  rw [square, checkedMul, if_pos range]
  exact ⟨_, rfl⟩

/-- The remaining even power is positive, unless the factor is zero. -/
theorem inRange_multiply {state : Variables width} {exp : ℕ}
    (range : InRange width (state.power (2 * exp + 1))) :
    InRange width (state.result.toInt * state.factor.toInt) := by
  by_cases zero : state.factor.toInt = 0
  · simp [zero]
  · rw [power_odd] at range
    exact range.of_mul_pos ((even_two_mul exp).pow_pos zero)

/-- The square of the factor divides what is left to multiply. -/
theorem inRange_square {state : Variables width} (even : Even width)
    (positive : 0 < width) (coherent : state.Coherent) {exp : ℕ}
    (remains : 0 < exp) (range : InRange width (state.power (2 * exp))) :
    InRange width (state.factor.toInt * state.factor.toInt) := by
  by_cases zero : state.factor.toInt = 0
  · simp [zero]
  · apply inRange_mul_self even positive
    have nonzero : state.result.toInt ≠ 0 := mt coherent zero
    rw [power_even] at range
    set square := state.factor.toInt * state.factor.toInt
    have unit : 1 ≤ square := mul_self_pos.mpr zero
    calc square ≤ square ^ exp := le_self_pow₀ unit remains.ne'
      _ ≤ |state.result.toInt| * square ^ exp :=
          le_mul_of_one_le_left (by positivity) (Int.one_le_abs nonzero)
      _ = |state.result.toInt * square ^ exp| := by
          rw [abs_mul, abs_of_nonneg (a := square ^ exp) (by positivity)]
      _ ≤ 2 ^ (width - 1) := abs_le.mpr ⟨range.1, range.2.le⟩

theorem power_multiply {state next : Variables width} (positive : 0 < width)
    (multiplied : multiply state = some next) (exp : ℕ) :
    next.power (2 * exp) = state.power (2 * exp + 1) := by
  obtain ⟨result, factor⟩ := multiply_eq_some positive multiplied
  rw [power_odd, Variables.power, result, factor]

theorem power_square {state next : Variables width} (positive : 0 < width)
    (squared : square state = some next) (exp : ℕ) :
    next.power exp = state.power (2 * exp) := by
  obtain ⟨result, factor⟩ := square_eq_some positive squared
  rw [power_even, Variables.power, result, factor]

theorem power_initial (wide : 1 < width) (left : BitVec width) (right : ℕ) :
    Variables.power ⟨1, left⟩ right = left.toInt ^ right := by
  have one : (1 : BitVec width).toInt = 1 := BitVec.toInt_one wide
  rw [Variables.power, one, one_mul]

/-- What is returned is the power. -/
theorem exp_eq_some (wide : 1 < width) {left power : BitVec width} {right : ℕ}
    (returned : exp left right = some power) :
    power.toInt = left.toInt ^ right := by
  have positive : 0 < width := by omega
  unfold exp at returned
  split at returned
  · obtain ⟨last, ends, rfl⟩ := Option.map_eq_some_iff.mp returned
    have invariant := loop_of_eq_some
      (fun state exp => state.power exp = left.toInt ^ right)
      (fun state next exp power multiplied =>
        (power_multiply positive multiplied exp).trans power)
      (fun state next exp power squared =>
        (power_square positive squared exp).trans power)
      right _ last (power_initial wide left right) ends
    rwa [Variables.power, pow_zero, mul_one] at invariant
  · rename_i zero
    rw [← Option.some_inj.mp returned, not_not.mp zero, pow_zero]
    exact BitVec.toInt_one wide

/-- The variables of a call whose power is representable. -/
def Computes (left : BitVec width) (right : ℕ) (state : Variables width)
    (exp : ℕ) : Prop :=
  state.power exp = left.toInt ^ right ∧ state.Coherent

theorem computes_multiply {left : BitVec width} {right : ℕ}
    (positive : 0 < width) (range : InRange width (left.toInt ^ right))
    (state : Variables width) (exp : ℕ)
    (computes : Computes left right state (2 * exp + 1)) :
    ∃ next, multiply state = some next ∧ Computes left right next (2 * exp) := by
  obtain ⟨power, coherent⟩ := computes
  rw [← power] at range
  obtain ⟨next, multiplied⟩ := multiply_of_inRange (inRange_multiply range)
  refine ⟨next, multiplied, (power_multiply positive multiplied exp).trans power, ?_⟩
  obtain ⟨result, factor⟩ := multiply_eq_some positive multiplied
  intro zero
  rw [factor]
  rcases mul_eq_zero.mp (result.symm.trans zero) with vanishes | vanishes
  · exact coherent vanishes
  · exact vanishes

theorem computes_square {left : BitVec width} {right : ℕ} (even : Even width)
    (positive : 0 < width) (range : InRange width (left.toInt ^ right))
    (state : Variables width) (exp : ℕ) (remains : 0 < exp)
    (computes : Computes left right state (2 * exp)) :
    ∃ next, square state = some next ∧ Computes left right next exp := by
  obtain ⟨power, coherent⟩ := computes
  rw [← power] at range
  obtain ⟨next, squared⟩ := square_of_inRange
    (inRange_square even positive coherent remains range)
  refine ⟨next, squared, (power_square positive squared exp).trans power, ?_⟩
  obtain ⟨result, factor⟩ := square_eq_some positive squared
  intro zero
  rw [factor, coherent (by rwa [← result]), mul_zero]

/-- A representable power is returned. -/
theorem exp_of_inRange (wide : 1 < width) (even : Even width)
    (left : BitVec width) (right : ℕ)
    (range : InRange width (left.toInt ^ right)) :
    ∃ power, exp left right = some power := by
  have positive : 0 < width := by omega
  unfold exp
  split
  · have one : (1 : BitVec width).toInt = 1 := BitVec.toInt_one wide
    obtain ⟨last, ends, _⟩ := loop_spec (Computes left right)
      (computes_multiply positive range) (computes_square even positive range)
      right ⟨1, left⟩ ⟨power_initial wide left right,
        fun zero => absurd (one.symm.trans zero) one_ne_zero⟩
    exact ⟨last.result, by rw [ends]; rfl⟩
  · exact ⟨1, rfl⟩

theorem exp_eq_none_iff (wide : 1 < width) (even : Even width)
    (left : BitVec width) (right : ℕ) :
    exp left right = none ↔ ¬ InRange width (left.toInt ^ right) := by
  constructor
  · intro raises range
    obtain ⟨power, returned⟩ := exp_of_inRange wide even left right range
    rw [raises] at returned
    exact nomatch returned
  · intro outside
    rw [Option.eq_none_iff_forall_ne_some]
    intro power returned
    apply outside
    rw [← exp_eq_some wide returned]
    exact inRange_toInt power

end Signed

/-- Both functions raise exactly for the powers that are not representable, and
return the others. -/
theorem expIntegers_exact :
    (∀ (left : Integer) (right : ℕ),
      (expInteger left right = none ↔ ¬ InRange 32 (left.toInt ^ right)) ∧
      ∀ power, expInteger left right = some power →
        power.toInt = left.toInt ^ right) ∧
    ∀ (left : LongLongInteger) (right : ℕ),
      (expLongLongInteger left right = none ↔
        ¬ InRange 64 (left.toInt ^ right)) ∧
      ∀ power, expLongLongInteger left right = some power →
        power.toInt = left.toInt ^ right := by
  constructor
  · intro left right
    exact ⟨exp_eq_none_iff (by decide) (by decide) left right,
      fun _ returned => exp_eq_some (by decide) returned⟩
  · intro left right
    exact ⟨exp_eq_none_iff (by decide) (by decide) left right,
      fun _ returned => exp_eq_some (by decide) returned⟩

section Modular

/-- The product that `Mult` forms. -/
def product (x y : Unsigned) : LongLongUnsigned :=
  x.setWidth 64 * y.setWidth 64

def mult (modulus x y : Unsigned) : Unsigned :=
  (product x y % modulus.setWidth 64).setWidth 32

def multiplyModular (modulus : Unsigned) (state : Variables 32) :
    Id (Variables 32) :=
  { state with result := mult modulus state.result state.factor }

def squareModular (modulus : Unsigned) (state : Variables 32) :
    Id (Variables 32) :=
  { state with factor := mult modulus state.factor state.factor }

def expModular (left modulus : Unsigned) (right : ℕ) : Unsigned :=
  if right ≠ 0 then
    (loop (multiplyModular modulus) (squareModular modulus) ⟨1, left⟩
      right).run.result
  else 1

theorem product_lt (x y : Unsigned) : x.toNat * y.toNat < 2 ^ 64 := by
  calc x.toNat * y.toNat < 2 ^ 32 * 2 ^ 32 := Nat.mul_lt_mul'' x.isLt y.isLt
    _ = 2 ^ 64 := by norm_num

theorem toNat_product (x y : Unsigned) :
    (product x y).toNat = x.toNat * y.toNat := by
  rw [product, BitVec.toNat_mul, BitVec.toNat_setWidth_of_le (by decide),
    BitVec.toNat_setWidth_of_le (by decide), Nat.mod_eq_of_lt (product_lt x y)]

theorem toNat_mult {modulus : Unsigned} (positive : 0 < modulus.toNat)
    (x y : Unsigned) :
    (mult modulus x y).toNat = x.toNat * y.toNat % modulus.toNat := by
  rw [mult, BitVec.toNat_setWidth, BitVec.toNat_umod, toNat_product,
    BitVec.toNat_setWidth_of_le (by decide)]
  apply Nat.mod_eq_of_lt
  exact (Nat.mod_lt _ positive).trans modulus.isLt

/-- The variables of a call: the result is reduced, and what is left to
multiply is the power. -/
def ComputesModulo (left modulus : Unsigned) (right : ℕ) (state : Variables 32)
    (exp : ℕ) : Prop :=
  state.result.toNat < modulus.toNat ∧
    state.result.toNat * state.factor.toNat ^ exp ≡ left.toNat ^ right
      [MOD modulus.toNat]

theorem computes_multiplyModular {left modulus : Unsigned} {right : ℕ}
    (positive : 0 < modulus.toNat) (state : Variables 32) (exp : ℕ)
    (computes : ComputesModulo left modulus right state (2 * exp + 1)) :
    ComputesModulo left modulus right (multiplyModular modulus state)
      (2 * exp) := by
  obtain ⟨_, congruent⟩ := computes
  have multiplied := toNat_mult positive state.result state.factor
  constructor
  · exact multiplied ▸ Nat.mod_lt _ positive
  · calc (mult modulus state.result state.factor).toNat *
          state.factor.toNat ^ (2 * exp)
        ≡ state.result.toNat * state.factor.toNat *
            state.factor.toNat ^ (2 * exp) [MOD modulus.toNat] := by
          rw [multiplied]
          exact (Nat.mod_modEq _ _).mul_right _
      _ = state.result.toNat * state.factor.toNat ^ (2 * exp + 1) := by ring
      _ ≡ left.toNat ^ right [MOD modulus.toNat] := congruent

theorem computes_squareModular {left modulus : Unsigned} {right : ℕ}
    (positive : 0 < modulus.toNat) (state : Variables 32) (exp : ℕ)
    (computes : ComputesModulo left modulus right state (2 * exp)) :
    ComputesModulo left modulus right (squareModular modulus state) exp := by
  obtain ⟨reduced, congruent⟩ := computes
  refine ⟨reduced, ?_⟩
  calc state.result.toNat * (mult modulus state.factor state.factor).toNat ^ exp
      ≡ state.result.toNat * (state.factor.toNat * state.factor.toNat) ^ exp
          [MOD modulus.toNat] := by
        rw [toNat_mult positive]
        exact ((Nat.mod_modEq _ _).pow exp).mul_left _
    _ = state.result.toNat * state.factor.toNat ^ (2 * exp) := by ring
    _ ≡ left.toNat ^ right [MOD modulus.toNat] := congruent

/-- The power is reduced exactly, for every base: no product wraps around in the
double width. -/
theorem expModular_exact (left modulus : Unsigned) (right : ℕ)
    (nontrivial : 2 ≤ modulus.toNat) :
    (expModular left modulus right).toNat =
        left.toNat ^ right % modulus.toNat ∧
      ∀ x y : Unsigned, x.toNat * y.toNat < 2 ^ 64 ∧
        (product x y).toNat = x.toNat * y.toNat ∧
        (mult modulus x y).toNat = x.toNat * y.toNat % modulus.toNat := by
  have positive : 0 < modulus.toNat := by omega
  refine ⟨?_, fun x y =>
    ⟨product_lt x y, toNat_product x y, toNat_mult positive x y⟩⟩
  have one : (1 : Unsigned).toNat = 1 := rfl
  unfold expModular
  split
  · obtain ⟨last, ends, reduced, congruent⟩ : ∃ last,
        loop (multiplyModular modulus) (squareModular modulus) ⟨1, left⟩ right =
          pure last ∧ ComputesModulo left modulus right last 0 :=
      loop_spec (m := Id) (ComputesModulo left modulus right)
        (fun state exp computes =>
          ⟨_, rfl, computes_multiplyModular positive state exp computes⟩)
        (fun state exp _ computes =>
          ⟨_, rfl, computes_squareModular positive state exp computes⟩)
        right ⟨1, left⟩ ⟨by rw [one]; omega, by rw [one, one_mul]⟩
    rw [ends]
    rw [pow_zero, mul_one] at congruent
    exact (Nat.mod_eq_of_lt reduced).symm.trans congruent
  · rename_i zero
    rw [not_not.mp zero, pow_zero, one, Nat.mod_eq_of_lt (by omega)]

/-- The greatest modulus. -/
theorem expModular_exact_greatest :
    (expModular 4294967294 4294967295 7).toNat = 4294967294 ^ 7 % 4294967295 :=
  (expModular_exact 4294967294 4294967295 7 (by decide)).1

end Modular

end IntegerPowers

end AdacHybridMsp430
