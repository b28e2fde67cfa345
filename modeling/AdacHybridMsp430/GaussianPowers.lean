import AdacHybridMsp430.ComplexOperators
import Mathlib.NumberTheory.Zsqrtd.Basic

/-!
# Powers and quotients of Gaussian integers

A complex number whose parts are integers is multiplied without any rounding as
long as its modulus does not exceed the precision.  The powers of such numbers are
then exact, and so is what is rounded once in a division.
-/

namespace AdacHybridMsp430

namespace ComplexTypes

open BinaryFloats BoundedLoops Function Target

/-- The Gaussian integers. -/
abbrev Gaussian := Zsqrtd (-1)

/-- The parts of a complex number are those of a Gaussian integer. -/
structure IsGaussian {format : Format} (x : Complex format) (z : Gaussian) : Prop where
  re : x.re.rational = some (z.re : ℚ)
  im : x.im.rational = some (z.im : ℚ)

section Norms

theorem norm_eq (z : Gaussian) : z.norm = z.re ^ 2 + z.im ^ 2 := by
  rw [Zsqrtd.norm_def]
  ring

theorem norm_nonneg (z : Gaussian) : 0 ≤ z.norm :=
  Zsqrtd.norm_nonneg (by decide) z

theorem sq_re_le (z : Gaussian) : z.re ^ 2 ≤ z.norm := by
  rw [norm_eq]
  exact le_add_of_nonneg_right (sq_nonneg z.im)

theorem sq_im_le (z : Gaussian) : z.im ^ 2 ≤ z.norm := by
  rw [norm_eq]
  exact le_add_of_nonneg_left (sq_nonneg z.re)

/-- Lower powers stay below a bound as well. -/
theorem pow_le_of_pow_le {a bound : ℤ} {n i : ℕ} (nonneg : 0 ≤ a) (one : 1 ≤ bound)
    (bounded : a ^ n ≤ bound) (le : i ≤ n) : a ^ i ≤ bound := by
  rcases nonneg.eq_or_lt with zero | positive
  · rw [← zero]
    exact (pow_le_one₀ le_rfl zero_le_one).trans one
  · exact (pow_le_pow_right₀ positive le).trans bounded

end Norms

section Products

variable {format : Format}

/-- The integers up to the precision are machine numbers. -/
theorem representable_of_abs_le_precision
    (wide : (format.precision : ℤ) < format.maxExponent) {n : ℤ}
    (size : |n| ≤ 2 ^ format.precision) : format.Representable n := by
  have range : |(n : ℚ) * 2 ^ (0 : ℤ)| < 2 ^ format.maxExponent := by
    have cast : |(n : ℚ)| ≤ 2 ^ (format.precision : ℤ) := by
      exact_mod_cast size
    rw [zpow_zero, mul_one]
    exact cast.trans_lt (zpow_lt_zpow_right₀ (by norm_num) wide)
  have machine := representable_of_abs_le format size format.minExponent_nonpos range
  rwa [zpow_zero, mul_one] at machine

theorem abs_mul_le {a b : ℤ} {z w : Gaussian} (left : a ^ 2 ≤ z.norm)
    (right : b ^ 2 ≤ w.norm)
    (bounded : z.norm * w.norm ≤ 2 ^ (2 * format.precision)) :
    |a * b| ≤ 2 ^ format.precision := by
  apply abs_le_of_sq_le_sq _ (by positivity)
  calc (a * b) ^ 2 = a ^ 2 * b ^ 2 := mul_pow a b 2
    _ ≤ z.norm * w.norm := mul_le_mul left right (sq_nonneg b) (norm_nonneg z)
    _ ≤ (2 ^ format.precision) ^ 2 := by rwa [← pow_mul, Nat.mul_comm]

/-- The machine numbers among which a product of Gaussian integers is computed. -/
theorem rational_product (wide : (format.precision : ℤ) < format.maxExponent)
    {x y : Value format} {a b : ℤ} {z w : Gaussian}
    (xIs : x.rational = some (a : ℚ)) (yIs : y.rational = some (b : ℚ))
    (left : a ^ 2 ≤ z.norm) (right : b ^ 2 ≤ w.norm)
    (bounded : z.norm * w.norm ≤ 2 ^ (2 * format.precision)) :
    (x.mul y).rational = some ((a * b : ℤ) : ℚ) := by
  have machine := representable_of_abs_le_precision wide
    (abs_mul_le left right bounded)
  rw [Int.cast_mul] at machine ⊢
  exact Value.rational_mul xIs yIs machine

/-- The sum of two products whose left factors belong to one Gaussian integer, and
whose right factors belong to another. -/
theorem rational_sum (wide : (format.precision : ℤ) < format.maxExponent)
    {x y u v : Value format} {a b c d n : ℤ} {z w : Gaussian}
    (xIs : x.rational = some (a : ℚ)) (yIs : y.rational = some (b : ℚ))
    (uIs : u.rational = some (c : ℚ)) (vIs : v.rational = some (d : ℚ))
    (left : a ^ 2 ≤ z.norm ∧ c ^ 2 ≤ z.norm) (right : b ^ 2 ≤ w.norm ∧ d ^ 2 ≤ w.norm)
    (bounded : z.norm * w.norm ≤ 2 ^ (2 * format.precision))
    (sum : a * b + c * d = n) (size : n ^ 2 ≤ z.norm * w.norm) :
    ((x.mul y).add (u.mul v)).rational = some (n : ℚ) := by
  have small : |n| ≤ 2 ^ format.precision := by
    apply abs_le_of_sq_le_sq _ (by positivity)
    rw [← pow_mul, Nat.mul_comm]
    exact size.trans bounded
  have machine := representable_of_abs_le_precision wide small
  rw [← sum, Int.cast_add] at machine ⊢
  exact Value.rational_add (rational_product wide xIs yIs left.1 right.1 bounded)
    (rational_product wide uIs vIs left.2 right.2 bounded) machine

/-- The difference of two such products. -/
theorem rational_difference (wide : (format.precision : ℤ) < format.maxExponent)
    {x y u v : Value format} {a b c d n : ℤ} {z w : Gaussian}
    (xIs : x.rational = some (a : ℚ)) (yIs : y.rational = some (b : ℚ))
    (uIs : u.rational = some (c : ℚ)) (vIs : v.rational = some (d : ℚ))
    (left : a ^ 2 ≤ z.norm ∧ c ^ 2 ≤ z.norm) (right : b ^ 2 ≤ w.norm ∧ d ^ 2 ≤ w.norm)
    (bounded : z.norm * w.norm ≤ 2 ^ (2 * format.precision))
    (difference : a * b - c * d = n) (size : n ^ 2 ≤ z.norm * w.norm) :
    ((x.mul y).sub (u.mul v)).rational = some (n : ℚ) := by
  have negIs : u.neg.rational = some ((-c : ℤ) : ℚ) := by
    rw [Int.cast_neg]
    exact Value.rational_neg uIs
  rw [Value.sub, ← Value.neg_mul]
  apply rational_sum wide xIs yIs negIs vIs ⟨left.1, _⟩ right bounded _ size
  · rw [neg_sq]
    exact left.2
  · rw [← difference]
    ring

/-- A machine number is not above `R'Last`. -/
theorem abs_le_last {inst : Instance} {x : Value inst.format} {a : ℚ}
    (xIs : x.rational = some a) : isLe x.abs (last inst) = true := by
  obtain ⟨machine, rfl⟩ := Value.eq_finite xIs
  exact (isLe_abs_last_iff machine).mpr machine.abs_le_greatest

variable {inst : Instance} {x y : Complex inst.format} {z w : Gaussian}

/-- The product of Gaussian integers is exact up to the precision. -/
theorem IsGaussian.times (xIs : IsGaussian x z) (yIs : IsGaussian y w)
    (bounded : z.norm * w.norm ≤ 2 ^ (2 * inst.format.precision)) :
    IsGaussian (times inst x y) (z * w) := by
  have reSize := sq_re_le (z * w)
  have imSize := sq_im_le (z * w)
  rw [Zsqrtd.norm_mul] at reSize imSize
  have re : ((x.re.mul y.re).sub (x.im.mul y.im)).rational =
      some ((z * w).re : ℚ) := by
    apply rational_difference inst.wide xIs.re yIs.re xIs.im yIs.im
      ⟨sq_re_le z, sq_im_le z⟩ ⟨sq_re_le w, sq_im_le w⟩ bounded _ reSize
    rw [Zsqrtd.re_mul]
    ring
  have im : ((x.re.mul y.im).add (x.im.mul y.re)).rational =
      some ((z * w).im : ℚ) :=
    rational_sum inst.wide xIs.re yIs.im xIs.im yIs.re
      ⟨sq_re_le z, sq_im_le z⟩ ⟨sq_im_le w, sq_re_le w⟩ bounded
      (Zsqrtd.im_mul z w).symm imSize
  constructor
  · rw [ComplexTypes.times]
    dsimp only
    rw [if_pos (abs_le_last re)]
    exact re
  · rw [ComplexTypes.times]
    dsimp only
    rw [if_pos (abs_le_last im)]
    exact im

/-- A Gaussian integer has one machine value. -/
theorem IsGaussian.eq (xIs : IsGaussian x z) (yIs : IsGaussian y z) : x = y := by
  obtain ⟨_, xRe⟩ := Value.eq_finite xIs.re
  obtain ⟨_, xIm⟩ := Value.eq_finite xIs.im
  obtain ⟨_, yRe⟩ := Value.eq_finite yIs.re
  obtain ⟨_, yIm⟩ := Value.eq_finite yIs.im
  ext
  · rw [xRe, yRe]
  · rw [xIm, yIm]

end Products

section Powers

variable {inst : Instance} {z : Gaussian} {n : ℕ}

theorem natAbs_sdiv_two (exp : Integer) :
    (exp.sdiv 2).toInt.natAbs = exp.toInt.natAbs / 2 := by
  have two : (2 : Integer).toInt = 2 := rfl
  rw [BitVec.toInt_sdiv_of_ne_or_ne _ _ (Or.inr (by decide)), two, Int.natAbs_tdiv]
  rfl

theorem srem_two_ne_zero_iff (exp : Integer) :
    exp.srem 2 ≠ 0 ↔ exp.toInt.natAbs % 2 = 1 := by
  have two : (2 : Integer).toInt = 2 := rfl
  have zero : (0 : Integer).toInt = 0 := rfl
  rw [Ne, ← BitVec.toInt_inj, BitVec.toInt_srem, two, zero, ← Int.natAbs_eq_zero,
    Int.natAbs_tmod]
  exact Nat.mod_two_ne_zero

theorem natAbs_pos_of_ne {exp : Integer} (more : exp ≠ 0) :
    0 < exp.toInt.natAbs := by
  rw [Int.natAbs_pos]
  exact fun none => more (BitVec.toInt_inj.mp none)

/-- The variables of the loops in front of a pass. -/
structure Powered (z : Gaussian) (n : ℕ) (state : PowerState inst.format) : Prop where
  powers : ∃ i j, IsGaussian state.result (z ^ i) ∧
    (state.exp ≠ 0 → IsGaussian state.factor (z ^ j)) ∧
    i + j * state.exp.toInt.natAbs = n

theorem powered_start {left : Complex inst.format} (isGaussian : IsGaussian left z)
    (right : Integer) :
    Powered z right.toInt.natAbs (powerStart left right) := by
  refine ⟨0, 1, ?_, fun _ => ?_, ?_⟩
  · rw [pow_zero]
    exact ⟨by simp [powerStart, one, Value.rational],
      by simp [powerStart, zero, Value.rational]⟩
  · rwa [pow_one]
  · exact (Nat.zero_add _).trans (Nat.one_mul _)

variable (bounded : z.norm ^ n ≤ 2 ^ (2 * inst.format.precision))
include bounded

theorem times_pow {x y : Complex inst.format} {i j : ℕ}
    (xIs : IsGaussian x (z ^ i)) (yIs : IsGaussian y (z ^ j)) (le : i + j ≤ n) :
    IsGaussian (times inst x y) (z ^ (i + j)) := by
  rw [pow_add]
  apply xIs.times yIs
  rw [← Zsqrtd.norm_mul, ← pow_add]
  calc (z ^ (i + j)).norm = z.norm ^ (i + j) := map_pow Zsqrtd.normMonoidHom z (i + j)
    _ ≤ 2 ^ (2 * inst.format.precision) :=
        pow_le_of_pow_le (norm_nonneg z) (one_le_pow₀ (by norm_num)) bounded le

theorem Powered.pass {state : PowerState inst.format} (powered : Powered z n state)
    (more : state.exp ≠ 0) : Powered z n (powerPass inst state) := by
  obtain ⟨i, j, result, factor, split⟩ := powered.powers
  have factorIs := factor more
  have exp : (powerPass inst state).exp.toInt.natAbs = state.exp.toInt.natAbs / 2 :=
    natAbs_sdiv_two state.exp
  have squared : (powerPass inst state).exp ≠ 0 →
      IsGaussian (powerPass inst state).factor (z ^ (j + j)) := by
    intro left
    apply times_pow bounded factorIs factorIs
    have positive := natAbs_pos_of_ne left
    rw [exp] at positive
    have enough : j * 2 ≤ j * state.exp.toInt.natAbs :=
      Nat.mul_le_mul_left j (by omega)
    omega
  by_cases odd : state.exp.srem 2 ≠ 0
  · have digit := (srem_two_ne_zero_iff state.exp).mp odd
    have whole : 2 * (state.exp.toInt.natAbs / 2) + 1 = state.exp.toInt.natAbs := by
      omega
    have next : i + j + (j + j) * (state.exp.toInt.natAbs / 2) = n := by
      calc i + j + (j + j) * (state.exp.toInt.natAbs / 2)
          = i + j * (2 * (state.exp.toInt.natAbs / 2) + 1) := by ring
        _ = n := by rw [whole, split]
    refine ⟨i + j, j + j, ?_, squared, exp ▸ next⟩
    rw [powerPass, if_pos odd]
    exact times_pow bounded result factorIs (by omega)
  · have digit := (srem_two_ne_zero_iff state.exp).not.mp odd
    have whole : 2 * (state.exp.toInt.natAbs / 2) = state.exp.toInt.natAbs := by
      omega
    have next : i + (j + j) * (state.exp.toInt.natAbs / 2) = n := by
      calc i + (j + j) * (state.exp.toInt.natAbs / 2)
          = i + j * (2 * (state.exp.toInt.natAbs / 2)) := by ring
        _ = n := by rw [whole, split]
    refine ⟨i, j + j, ?_, squared, exp ▸ next⟩
    rw [powerPass, if_neg odd]
    exact result

/-- The loops end with the power for the absolute value of the exponent. -/
theorem powerLoop_spec {left : Complex inst.format} (isGaussian : IsGaussian left z)
    {right : Integer} (exponent : right.toInt.natAbs = n) {fuel : ℕ}
    (enough : n < fuel) :
    ∃ state, whileLoop (fun state => state.exp ≠ 0) (powerPass inst) fuel
        (powerStart left right) = some state ∧
      IsGaussian state.result (z ^ n) := by
  obtain ⟨state, ends, powered, done⟩ :=
    whileLoop_spec (Powered z n) (fun state => state.exp.toInt.natAbs) (by
      intro state powered more
      have more : state.exp ≠ 0 := of_decide_eq_true more
      refine ⟨powered.pass bounded more, ?_⟩
      have positive := natAbs_pos_of_ne more
      have halved : (powerPass inst state).exp.toInt.natAbs = _ :=
        natAbs_sdiv_two state.exp
      omega) (exponent ▸ powered_start isGaussian right) (exponent ▸ enough)
  refine ⟨state, ends, ?_⟩
  obtain ⟨i, j, result, _, split⟩ := powered.powers
  have zero : state.exp = 0 := not_not.mp (of_decide_eq_false done)
  rw [zero, show (0 : Integer).toInt.natAbs = 0 from rfl, Nat.mul_zero,
    Nat.add_zero] at split
  rwa [split] at result

end Powers

section Quotients

variable {format : Format}

/-- The machine numbers next to the parts of a complex number. -/
def rounded (re im : ℚ) : Complex format :=
  ⟨format.round re, format.round im⟩

variable {inst : Instance} {x y : Complex inst.format} {z w : Gaussian}

theorem one_le_norm (nonzero : w ≠ 0) : 1 ≤ w.norm := by
  have different := (Zsqrtd.norm_eq_zero_iff (by decide) w).not.mpr nonzero
  have nonneg := norm_nonneg w
  omega

/-- The divisor of a division is the norm. -/
theorem rational_squares (yIs : IsGaussian y w)
    (small : w.norm ≤ 2 ^ inst.format.precision) :
    (squares y).rational = some (w.norm : ℚ) := by
  have part : ∀ a : ℤ, a ^ 2 ≤ w.norm → inst.format.Representable ((a * a : ℤ) : ℚ) := by
    intro a le
    apply representable_of_abs_le_precision inst.wide
    rw [abs_of_nonneg (mul_self_nonneg a), ← sq]
    exact le.trans small
  have whole := representable_of_abs_le_precision inst.wide
    ((abs_of_nonneg (norm_nonneg w)).trans_le small)
  have split : (w.norm : ℚ) = (w.re : ℚ) * w.re + (w.im : ℚ) * w.im := by
    rw [norm_eq]
    push_cast
    ring
  have re := part w.re (sq_re_le w)
  have im := part w.im (sq_im_le w)
  rw [Int.cast_mul] at re im
  rw [split] at whole ⊢
  exact Value.rational_add (Value.rational_mul yIs.re yIs.re re)
    (Value.rational_mul yIs.im yIs.im im) whole

theorem realOver_one (yIs : IsGaussian y w) (nonzero : w ≠ 0)
    (small : w.norm ≤ 2 ^ inst.format.precision) :
    realOver one y = rounded (w.re / w.norm) (-w.im / w.norm) := by
  have divisor := rational_squares yIs small
  have positive : (w.norm : ℚ) ≠ 0 := by
    have least := one_le_norm nonzero
    exact_mod_cast (show w.norm ≠ 0 by omega)
  have part : ∀ {value : Value inst.format} {a : ℤ}, value.rational = some (a : ℚ) →
      (one.mul value).rational = some (a : ℚ) := by
    intro value a valueIs
    have machine := Value.representable_of_rational valueIs
    rw [← one_mul (a : ℚ)] at machine ⊢
    exact Value.rational_mul rfl valueIs machine
  rw [realOver, Value.div_eq_round (part yIs.re) divisor positive,
    Value.div_eq_round (part yIs.im) divisor positive, ← round_neg, ← neg_div]
  rfl

theorem isZero_iff {value : Value format} {a : ℤ}
    (valueIs : value.rational = some (a : ℚ)) : isZero value = true ↔ a = 0 := by
  obtain ⟨machine, rfl⟩ := Value.eq_finite valueIs
  exact (isZero_finite machine).trans Int.cast_eq_zero

/-- The check for a complex zero. -/
theorem isZero_parts_iff (yIs : IsGaussian y w) :
    (isZero y.re = true ∧ isZero y.im = true) ↔ w = 0 := by
  rw [isZero_iff yIs.re, isZero_iff yIs.im, Zsqrtd.ext_iff]
  rfl

/-- The division of Gaussian integers rounds once. -/
theorem div_isGaussian (xIs : IsGaussian x z) (yIs : IsGaussian y w) (nonzero : w ≠ 0)
    (bounded : z.norm * w.norm ≤ 2 ^ (2 * inst.format.precision))
    (small : w.norm ≤ 2 ^ inst.format.precision) :
    div (.complex x) (.complex y) = .ok (.complex
      (rounded ((z * star w).re / w.norm) ((z * star w).im / w.norm))) := by
  have divisor := rational_squares yIs small
  have positive : (w.norm : ℚ) ≠ 0 := by
    have least := one_le_norm nonzero
    exact_mod_cast (show w.norm ≠ 0 by omega)
  have reSize := sq_re_le (z * star w)
  have imSize := sq_im_le (z * star w)
  rw [Zsqrtd.norm_mul, Zsqrtd.norm_conj] at reSize imSize
  have re : ((x.re.mul y.re).add (x.im.mul y.im)).rational =
      some ((z * star w).re : ℚ) := by
    apply rational_sum inst.wide xIs.re yIs.re xIs.im yIs.im
      ⟨sq_re_le z, sq_im_le z⟩ ⟨sq_re_le w, sq_im_le w⟩ bounded _ reSize
    simp
  have im : ((x.im.mul y.re).sub (x.re.mul y.im)).rational =
      some ((z * star w).im : ℚ) := by
    apply rational_difference inst.wide xIs.im yIs.re xIs.re yIs.im
      ⟨sq_im_le z, sq_re_le z⟩ ⟨sq_re_le w, sq_im_le w⟩ bounded _ imSize
    simp
    ring
  rw [div, if_neg ((isZero_parts_iff yIs).not.mpr nonzero),
    Value.div_eq_round re divisor positive, Value.div_eq_round im divisor positive]
  rfl

/-- A quotient that is a Gaussian integer is a machine number. -/
theorem rounded_quotient (nonzero : w ≠ 0) {q : Gaussian}
    (bounded : (q * w).norm * w.norm ≤ 2 ^ (2 * inst.format.precision)) :
    IsGaussian
      (rounded ((q * w * star w).re / w.norm) ((q * w * star w).im / w.norm) :
        Complex inst.format) q := by
  have least := one_le_norm nonzero
  have positive : (w.norm : ℚ) ≠ 0 := by
    exact_mod_cast (show w.norm ≠ 0 by omega)
  have product : q * w * star w = q * (w.norm : Gaussian) := by
    rw [Zsqrtd.norm_eq_mul_conj, mul_assoc]
  have norm : q.norm ≤ 2 ^ (2 * inst.format.precision) := by
    have one : 1 ≤ w.norm * w.norm := one_le_mul_of_one_le_of_one_le least least
    rw [Zsqrtd.norm_mul, mul_assoc] at bounded
    exact (le_mul_of_one_le_right (norm_nonneg q) one).trans bounded
  have part : ∀ {a n : ℤ}, n = a * w.norm → a ^ 2 ≤ q.norm →
      (inst.format.round ((n : ℚ) / w.norm)).rational = some (a : ℚ) := by
    intro a n eq le
    have machine : inst.format.Representable a := by
      apply representable_of_abs_le_precision inst.wide
      apply abs_le_of_sq_le_sq _ (by positivity)
      rw [← pow_mul, Nat.mul_comm]
      exact le.trans norm
    rw [eq, Int.cast_mul, mul_div_cancel_right₀ _ positive,
      round_of_representable machine]
    rfl
  rw [product]
  constructor
  · exact part (by simp) (sq_re_le q)
  · exact part (by simp) (sq_im_le q)

/-- The power of a Gaussian integer is exact as long as its modulus does not exceed
the precision, and a power with a negative exponent is rounded once. -/
theorem gaussianPowers {left : Complex inst.format} (isGaussian : IsGaussian left z)
    (right : Integer) {fuel : ℕ} (enough : right.toInt.natAbs < fuel)
    (bounded : z.norm ^ right.toInt.natAbs ≤ 2 ^ (2 * inst.format.precision)) :
    ∃ result, power inst fuel left right = some result ∧
      (0 ≤ right.toInt → IsGaussian result (z ^ right.toInt.natAbs)) ∧
      (right.toInt < 0 → z ≠ 0 →
        z.norm ^ right.toInt.natAbs ≤ 2 ^ inst.format.precision →
        result = rounded ((z ^ right.toInt.natAbs).re / (z ^ right.toInt.natAbs).norm)
          (-(z ^ right.toInt.natAbs).im / (z ^ right.toInt.natAbs).norm)) := by
  obtain ⟨state, ends, result⟩ := powerLoop_spec bounded isGaussian rfl enough
  rw [power, ends, Option.map_some]
  refine ⟨_, rfl, ?_, ?_⟩
  · intro nonneg
    rwa [if_pos nonneg]
  · intro negative nonzero small
    have norm : (z ^ right.toInt.natAbs).norm = z.norm ^ right.toInt.natAbs :=
      map_pow Zsqrtd.normMonoidHom z _
    have powerNonzero : z ^ right.toInt.natAbs ≠ 0 := by
      intro zero
      rw [zero, Zsqrtd.norm_zero] at norm
      exact absurd norm (pow_pos (one_le_norm nonzero) _).ne
    rw [if_neg negative.not_ge]
    exact realOver_one result powerNonzero (norm ▸ small)

def sample (re im : ℤ) (reSize : |re| ≤ 2 ^ complexTypes.format.precision)
    (imSize : |im| ≤ 2 ^ complexTypes.format.precision) :
    Complex complexTypes.format :=
  ⟨.finite re (representable_of_abs_le_precision complexTypes.wide reSize),
    .finite im (representable_of_abs_le_precision complexTypes.wide imSize)⟩

/-- `(2.0 + i) ** 5`. -/
theorem gaussianPowers_five :
    ∃ result, power complexTypes 6 (sample 2 1 (by decide) (by decide)) 5 =
      some result ∧ IsGaussian result ⟨-38, 41⟩ := by
  have isGaussian : IsGaussian (sample 2 1 (by decide) (by decide)) ⟨2, 1⟩ := ⟨rfl, rfl⟩
  obtain ⟨result, returned, exact, -⟩ :=
    gaussianPowers isGaussian 5 (show (5 : Integer).toInt.natAbs < 6 by decide)
      (by decide)
  exact ⟨result, returned, exact (by decide)⟩

/-- The quotient of Gaussian integers is rounded once as long as the products of the
operands do not exceed the precision, and is exact if it is a Gaussian integer.  The
only exception is the one for a divisor zero. -/
theorem gaussianQuotients (xIs : IsGaussian x z) (yIs : IsGaussian y w)
    (bounded : z.norm * w.norm ≤ 2 ^ (2 * inst.format.precision))
    (small : w.norm ≤ 2 ^ inst.format.precision) :
    (w = 0 → div (.complex x) (.complex y) = .error .constraintError) ∧
    (w ≠ 0 → div (.complex x) (.complex y) = .ok (.complex
      (rounded ((z * star w).re / w.norm) ((z * star w).im / w.norm)))) ∧
    ∀ q, w ≠ 0 → z = q * w → ∃ quotient,
      div (.complex x) (.complex y) = .ok (.complex quotient) ∧
        IsGaussian quotient q := by
  refine ⟨?_, fun nonzero => div_isGaussian xIs yIs nonzero bounded small, ?_⟩
  · intro zero
    exact if_pos ((isZero_parts_iff yIs).mpr zero)
  · rintro q nonzero rfl
    exact ⟨_, div_isGaussian xIs yIs nonzero bounded small,
      rounded_quotient nonzero bounded⟩

theorem gaussianQuotients_sample :
    ∃ quotient, div (.complex (sample (-38) 41 (by decide) (by decide)))
        (.complex (sample 2 1 (by decide) (by decide))) = .ok (.complex quotient) ∧
      IsGaussian quotient ⟨-7, 24⟩ := by
  have dividend : IsGaussian (sample (-38) 41 (by decide) (by decide)) ⟨-38, 41⟩ :=
    ⟨rfl, rfl⟩
  have divisor : IsGaussian (sample 2 1 (by decide) (by decide)) ⟨2, 1⟩ := ⟨rfl, rfl⟩
  exact (gaussianQuotients dividend divisor (by decide) (by decide)).2.2 ⟨-7, 24⟩
    (by decide) rfl

end Quotients

end ComplexTypes

end AdacHybridMsp430
