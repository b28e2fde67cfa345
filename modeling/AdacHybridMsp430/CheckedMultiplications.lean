import AdacHybridMsp430.SignedWords

/-!
# Multiplication with overflow detection

The functions `__mulosi4` and `__mulodi4` of the LLVM run-time.  They find out
by truncating divisions, in the width of the operands, whether the product
overflows.
-/

namespace AdacHybridMsp430

namespace CheckedMultiplications

open SignedWords

/-- The value returned and the `int` stored in `*overflow`. -/
structure Product (width : ℕ) where
  result : BitVec width
  overflow : BitVec 16

variable {width : ℕ}

/-- The common text of the two functions, in which the width is `N`.  A division
with a zero divisor or a quotient out of range is undefined, which is `none`. -/
def mulo (a b : BitVec width) : Option (Product width) :=
  let min := BitVec.ofNat width 1 <<< (width - 1)
  let max := ~~~ min
  let result := a * b
  if a = min then
    some ⟨result, if b ≠ 0 ∧ b ≠ 1 then 1 else 0⟩
  else if b = min then
    some ⟨result, if a ≠ 0 ∧ a ≠ 1 then 1 else 0⟩
  else
    let sa := a.sshiftRight (width - 1)
    let absA := (a ^^^ sa) - sa
    let sb := b.sshiftRight (width - 1)
    let absB := (b ^^^ sb) - sb
    if absA.slt 2 ∨ absB.slt 2 then
      some ⟨result, 0⟩
    else if sa = sb then do
      let quotient ← checkedDiv max absB
      some ⟨result, if quotient.slt absA then 1 else 0⟩
    else do
      let quotient ← checkedDiv min (-absB)
      some ⟨result, if quotient.slt absA then 1 else 0⟩

/-- `__mulosi4`. -/
def mulosi4 (a b : BitVec 32) : Option (Product 32) := mulo a b

/-- `__mulodi4`. -/
def mulodi4 (a b : BitVec 64) : Option (Product 64) := mulo a b

/-- What the functions are for: the wrapped product and whether it is wrong. -/
def expected (a b : BitVec width) : Product width where
  result := a * b
  overflow := if InRange width (a.toInt * b.toInt) then 0 else 1

section Arithmetic

/-- The least integer overflows with every factor but zero and one. -/
theorem inRange_min_mul (factor : ℤ) :
    InRange width (-2 ^ (width - 1) * factor) ↔ factor = 0 ∨ factor = 1 := by
  have power : (0 : ℤ) < 2 ^ (width - 1) := by positivity
  constructor
  · rintro ⟨lower, upper⟩
    have nonneg : -1 < factor := by nlinarith
    have small : factor ≤ 1 := by nlinarith
    omega
  · rintro (rfl | rfl)
    · rw [mul_zero]
      exact inRange_zero width
    · rw [mul_one]
      exact ⟨le_rfl, by linarith⟩

theorem inRange_of_abs_lt_two {a b : BitVec width}
    (proper : b.toInt ≠ -2 ^ (width - 1)) (small : |a.toInt| < 2) :
    InRange width (a.toInt * b.toInt) := by
  obtain ⟨lower, upper⟩ := inRange_toInt b
  have lower := lower.lt_of_ne proper.symm
  have cases : a.toInt = -1 ∨ a.toInt = 0 ∨ a.toInt = 1 := by
    rw [abs_lt] at small
    omega
  rcases cases with unit | zero | unit
  · rw [unit]
    constructor <;> linarith
  · rw [zero, zero_mul]
    exact inRange_zero width
  · rw [unit, one_mul]
    exact inRange_toInt b

/-- The product of two factors of one sign. -/
theorem inRange_mul_of_same {a b : ℤ} (same : a < 0 ↔ b < 0) (nonzero : b ≠ 0) :
    InRange width (a * b) ↔ ¬ (2 ^ (width - 1) - 1) / |b| < |a| := by
  have product : a * b = |a| * |b| := by
    rw [← abs_mul, eq_comm, abs_eq_self]
    rcases lt_or_ge a 0 with negative | nonneg
    · exact mul_nonneg_of_nonpos_of_nonpos negative.le (same.mp negative).le
    · exact mul_nonneg nonneg (not_lt.mp (same.not.mp (not_lt.mpr nonneg)))
  have nonneg : -2 ^ (width - 1) ≤ |a| * |b| :=
    (neg_nonpos.mpr (by positivity)).trans (by positivity)
  rw [not_lt, Int.le_ediv_iff_mul_le (abs_pos.mpr nonzero), InRange, product,
    and_iff_right nonneg, Int.le_sub_one_iff]

/-- The product of two factors of different signs. -/
theorem inRange_mul_of_different {a b : ℤ} (different : ¬ (a < 0 ↔ b < 0))
    (nonzero : b ≠ 0) :
    InRange width (a * b) ↔ ¬ 2 ^ (width - 1) / |b| < |a| := by
  have product : a * b = -(|a| * |b|) := by
    have nonpos : a * b ≤ 0 := by
      rcases lt_or_ge a 0 with negative | nonneg
      · exact mul_nonpos_of_nonpos_of_nonneg negative.le (by omega)
      · exact mul_nonpos_of_nonneg_of_nonpos nonneg (by omega)
    rw [← abs_mul, abs_of_nonpos nonpos, neg_neg]
  have nonpos : -(|a| * |b|) < 2 ^ (width - 1) :=
    (neg_nonpos.mpr (by positivity)).trans_lt (by positivity)
  rw [not_lt, Int.le_ediv_iff_mul_le (abs_pos.mpr nonzero), InRange, product,
    and_iff_left nonpos, neg_le_neg_iff]

end Arithmetic

section Overflow

/-- The bounds `MIN` and `MAX`. -/
theorem min_eq (width : ℕ) : BitVec.ofNat width 1 <<< (width - 1) = BitVec.intMin width :=
  (BitVec.twoPow_eq width (width - 1)).symm

/-- The flag for a test that finds the overflow. -/
theorem expected_eq {a b : BitVec width} {test : Prop} [Decidable test]
    (found : InRange width (a.toInt * b.toInt) ↔ ¬ test) :
    expected a b = ⟨a * b, if test then 1 else 0⟩ := by
  rw [expected, if_congr found rfl rfl, ite_not]

theorem expected_comm (a b : BitVec width) : expected a b = expected b a := by
  rw [expected, expected, BitVec.mul_comm, mul_comm a.toInt]

/-- The first two tests. -/
theorem expected_min (wide : 2 < width) (b : BitVec width) :
    expected (BitVec.intMin width) b =
      ⟨BitVec.intMin width * b, if b ≠ 0 ∧ b ≠ 1 then 1 else 0⟩ := by
  apply expected_eq
  have one : (1 : BitVec width).toInt = 1 := BitVec.toInt_one (by omega)
  have zero : (0 : BitVec width).toInt = 0 := BitVec.toInt_zero
  rw [BitVec.toInt_intMin_of_pos (by omega), inRange_min_mul, not_and_or, not_not,
    not_not, ← BitVec.toInt_inj, ← BitVec.toInt_inj, zero, one]

theorem toInt_two (wide : 2 < width) : (2 : BitVec width).toInt = 2 := by
  have room : (2 : ℤ) ^ 2 ≤ 2 ^ (width - 1) :=
    pow_le_pow_right₀ (by decide) (by omega)
  have range : InRange width 2 := ⟨by linarith, by linarith⟩
  exact toInt_ofInt (by omega) range

variable {a b : BitVec width}

theorem magnitude_slt_two (wide : 2 < width) (proper : a ≠ BitVec.intMin width) :
    (magnitude a).slt 2 ↔ |a.toInt| < 2 := by
  rw [BitVec.slt_iff_toInt_lt, toInt_magnitude proper, toInt_two wide]

/-- The quotient of the greatest integer by a magnitude. -/
theorem checkedDiv_max (wide : 2 < width) (proper : b ≠ BitVec.intMin width)
    (large : 2 ≤ |b.toInt|) :
    ∃ quotient, checkedDiv (BitVec.intMax width) (magnitude b) = some quotient ∧
      quotient.toInt = (2 ^ (width - 1) - 1) / |b.toInt| := by
  have positive : (0 : ℤ) < 2 ^ (width - 1) := by positivity
  have greatest : (0 : ℤ) ≤ 2 ^ (width - 1) - 1 := by omega
  have value : (BitVec.intMax width).toInt.tdiv (magnitude b).toInt =
      (2 ^ (width - 1) - 1) / |b.toInt| := by
    rw [BitVec.toInt_intMax, toInt_magnitude proper,
      Int.tdiv_eq_ediv_of_nonneg greatest]
  rw [← value]
  apply checkedDiv_eq_some (by omega)
  · rw [toInt_magnitude proper]
    omega
  · rw [value]
    constructor
    · exact (neg_nonpos.mpr positive.le).trans
        (Int.ediv_nonneg greatest (abs_nonneg _))
    · exact (Int.ediv_le_self _ greatest).trans_lt (by omega)

/-- The quotient of the least integer by an opposite magnitude. -/
theorem checkedDiv_min (wide : 2 < width) (proper : b ≠ BitVec.intMin width)
    (large : 2 ≤ |b.toInt|) :
    ∃ quotient, checkedDiv (BitVec.intMin width) (-magnitude b) = some quotient ∧
      quotient.toInt = 2 ^ (width - 1) / |b.toInt| := by
  have positive : (0 : ℤ) < 2 ^ (width - 1) := by positivity
  have opposite : (-magnitude b).toInt = -|b.toInt| := by
    rw [BitVec.toInt_neg_of_ne_intMin, toInt_magnitude proper]
    intro least
    have value := (toInt_eq_min_iff (by omega) _).mp least
    rw [toInt_magnitude proper] at value
    omega
  have value : (BitVec.intMin width).toInt.tdiv (-magnitude b).toInt =
      2 ^ (width - 1) / |b.toInt| := by
    rw [BitVec.toInt_intMin_of_pos (by omega), opposite, Int.neg_tdiv, Int.tdiv_neg,
      neg_neg, Int.tdiv_eq_ediv_of_nonneg positive.le]
  rw [← value]
  apply checkedDiv_eq_some (by omega)
  · rw [opposite]
    omega
  · rw [value]
    constructor
    · exact (neg_nonpos.mpr positive.le).trans
        (Int.ediv_nonneg positive.le (abs_nonneg _))
    · exact Int.ediv_lt_self_of_pos_of_ne_one positive (by omega)

/-- The test of the overflow never divides by zero, and is exact. -/
theorem mulo_eq (wide : 2 < width) (a b : BitVec width) :
    mulo a b = some (expected a b) := by
  simp only [mulo, min_eq, not_intMin]
  by_cases least : a = BitVec.intMin width
  · rw [if_pos least, least, expected_min wide b]
  rw [if_neg least]
  by_cases leastRight : b = BitVec.intMin width
  · rw [if_pos leastRight, leastRight, expected_comm, expected_min wide a,
      BitVec.mul_comm]
  rw [if_neg leastRight]
  have properRight := (toInt_eq_min_iff (by omega) b).not.mp leastRight
  have properLeft := (toInt_eq_min_iff (by omega) a).not.mp least
  change (if (magnitude a).slt 2 ∨ (magnitude b).slt 2 then _
    else if signFill a = signFill b then
      (checkedDiv (BitVec.intMax width) (magnitude b)).bind _
    else (checkedDiv (BitVec.intMin width) (-magnitude b)).bind _) = _
  by_cases small : |a.toInt| < 2 ∨ |b.toInt| < 2
  · rw [if_pos (by rwa [magnitude_slt_two wide least,
      magnitude_slt_two wide leastRight]), expected, if_pos]
    rcases small with small | small
    · exact inRange_of_abs_lt_two properRight small
    · rw [mul_comm]
      exact inRange_of_abs_lt_two properLeft small
  · rw [if_neg (by rwa [magnitude_slt_two wide least,
      magnitude_slt_two wide leastRight])]
    have large : 2 ≤ |b.toInt| := by omega
    have nonzero : b.toInt ≠ 0 := abs_pos.mp (by omega)
    by_cases same : a.toInt < 0 ↔ b.toInt < 0
    · obtain ⟨quotient, divides, value⟩ := checkedDiv_max wide leastRight large
      rw [if_pos ((signFill_eq_iff (by omega) a b).mpr same), divides,
        expected_eq (inRange_mul_of_same same nonzero), ← value,
        ← toInt_magnitude least]
      simp only [Option.bind_some, BitVec.slt_iff_toInt_lt]
      rfl
    · obtain ⟨quotient, divides, value⟩ := checkedDiv_min wide leastRight large
      rw [if_neg ((signFill_eq_iff (by omega) a b).not.mpr same), divides,
        expected_eq (inRange_mul_of_different same nonzero), ← value,
        ← toInt_magnitude least]
      simp only [Option.bind_some, BitVec.slt_iff_toInt_lt]
      rfl

end Overflow

/-- Both functions return the product reduced to the signed range, and report
exactly the products outside it.  No division in them is undefined. -/
theorem products_exact :
    (∀ a b : BitVec 32, ∃ product, mulosi4 a b = some product ∧
      product.result.toInt = (a.toInt * b.toInt).bmod (2 ^ 32) ∧
      (product.overflow = 1 ↔ ¬ InRange 32 (a.toInt * b.toInt)) ∧
      (product.overflow = 0 ↔ InRange 32 (a.toInt * b.toInt))) ∧
    ∀ a b : BitVec 64, ∃ product, mulodi4 a b = some product ∧
      product.result.toInt = (a.toInt * b.toInt).bmod (2 ^ 64) ∧
      (product.overflow = 1 ↔ ¬ InRange 64 (a.toInt * b.toInt)) ∧
      (product.overflow = 0 ↔ InRange 64 (a.toInt * b.toInt)) := by
  constructor
  · intro a b
    refine ⟨expected a b, mulo_eq (by decide) a b, BitVec.toInt_mul a b, ?_, ?_⟩ <;>
      simp [expected]
  · intro a b
    refine ⟨expected a b, mulo_eq (by decide) a b, BitVec.toInt_mul a b, ?_, ?_⟩ <;>
      simp [expected]

end CheckedMultiplications

end AdacHybridMsp430
