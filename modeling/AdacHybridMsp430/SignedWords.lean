import Mathlib.Algebra.Order.Ring.Int
import Mathlib.Data.Nat.Prime.Int
import Mathlib.Algebra.GCDMonoid.Nat
import Mathlib.Tactic.LinearCombination
import Mathlib.Tactic.Linarith
import Mathlib.Tactic.Positivity
import Mathlib.Tactic.Ring

/-!
# Signed words

The two's-complement reading of words of a width: its range, the operations
whose mathematical result lies in it, and operations that check that it does.
-/

namespace SignedWords

variable {width : ℕ}

/-- The range of the signed words of a width. -/
def InRange (width : ℕ) (value : ℤ) : Prop :=
  -2 ^ (width - 1) ≤ value ∧ value < 2 ^ (width - 1)

instance (width : ℕ) (value : ℤ) : Decidable (InRange width value) :=
  inferInstanceAs (Decidable (_ ∧ _))

/-- Multiplication with an overflow check. -/
def checkedMul (left right : BitVec width) : Option (BitVec width) :=
  if InRange width (left.toInt * right.toInt) then some (left * right) else none

/-- Truncating division with a check of the divisor and of the quotient. -/
def checkedDiv (left right : BitVec width) : Option (BitVec width) :=
  if right.toInt ≠ 0 ∧ InRange width (left.toInt.tdiv right.toInt) then
    some (left.sdiv right)
  else none

/-- The bits of the sign: all ones for a negative word. -/
def signFill (word : BitVec width) : BitVec width :=
  word.sshiftRight (width - 1)

/-- The magnitude, computed without a branch. -/
def magnitude (word : BitVec width) : BitVec width :=
  (word ^^^ signFill word) - signFill word

section Range

theorem inRange_toInt (word : BitVec width) : InRange width word.toInt := by
  constructor
  · exact BitVec.le_toInt word
  · exact BitVec.toInt_lt

@[simp]
theorem inRange_zero (width : ℕ) : InRange width 0 := by
  constructor
  · simp
  · positivity

/-- Dividing by a positive factor does not leave the range. -/
theorem InRange.of_mul_pos {value factor : ℤ}
    (range : InRange width (value * factor)) (positive : 0 < factor) :
    InRange width value := by
  obtain ⟨lower, upper⟩ := range
  rcases le_or_gt 0 value with nonneg | negative
  · have le : value ≤ value * factor := le_mul_of_one_le_right nonneg positive
    exact ⟨(neg_nonpos.mpr (by positivity)).trans nonneg, le.trans_lt upper⟩
  · have le : value * factor ≤ value := by
      have unit : (1 : ℤ) ≤ factor := positive
      nlinarith
    exact ⟨lower.trans le, negative.trans (by positivity)⟩

/-- An odd power of two is no square. -/
theorem mul_self_ne_two_pow_odd (value : ℤ) (half : ℕ) :
    value * value ≠ 2 ^ (2 * half + 1) := by
  intro square
  have squares : (2 ^ half) ^ 2 ∣ value ^ 2 := ⟨2, by rw [sq, square]; ring⟩
  obtain ⟨quotient, rfl⟩ := (Int.pow_dvd_pow_iff (by decide)).mp squares
  have two : quotient * quotient = 2 := by
    have positive : (0 : ℤ) < (2 ^ half) ^ 2 := by positivity
    apply mul_left_cancel₀ positive.ne'
    linear_combination square
  exact Int.prime_two.not_isSquare ⟨quotient, two.symm⟩

/-- In an even width the magnitude of the least word is no square. -/
theorem inRange_mul_self {value : ℤ} (even : Even width) (positive : 0 < width)
    (le : value * value ≤ 2 ^ (width - 1)) : InRange width (value * value) := by
  constructor
  · exact (neg_nonpos.mpr (by positivity)).trans (mul_self_nonneg value)
  · obtain ⟨half, halves⟩ := even
    have odd : width - 1 = 2 * (half - 1) + 1 := by
      omega
    apply lt_of_le_of_ne le
    rw [odd]
    exact mul_self_ne_two_pow_odd value (half - 1)

theorem toInt_ofInt (positive : 0 < width) {value : ℤ}
    (range : InRange width value) : (BitVec.ofInt width value).toInt = value :=
  BitVec.toInt_ofInt_eq_self positive range.1 range.2

/-- The opposite of a negative word, read without a sign, is its magnitude. -/
theorem toNat_neg_of_neg {word : BitVec width} (negative : word.toInt < 0) :
    (-word).toNat = word.toInt.natAbs := by
  have bound := word.isLt
  have large := BitVec.toInt_neg_iff.mp negative
  rw [BitVec.toNat_neg, Nat.mod_eq_of_lt (by omega), BitVec.toInt_eq_toNat_cond,
    if_neg (by omega)]
  omega

theorem toNat_of_nonneg {word : BitVec width} (nonneg : 0 ≤ word.toInt) :
    word.toNat = word.toInt.natAbs := by
  have small := BitVec.toInt_neg_iff.not.mp (not_lt.mpr nonneg)
  rw [BitVec.toInt_eq_toNat_cond, if_pos (by omega), Int.natAbs_natCast]

theorem toInt_mul (positive : 0 < width) {left right : BitVec width}
    (range : InRange width (left.toInt * right.toInt)) :
    (left * right).toInt = left.toInt * right.toInt := by
  rw [BitVec.toInt_mul, ← BitVec.toInt_ofInt]
  exact toInt_ofInt positive range

end Range

section Magnitude

theorem not_intMin (width : ℕ) :
    ~~~ BitVec.intMin width = BitVec.intMax width := by
  rw [BitVec.not_eq_neg_add, BitVec.neg_intMin, ← BitVec.intMax_add_one]
  exact BitVec.add_sub_cancel _ _

/-- The only word without an opposite. -/
theorem toInt_eq_min_iff (positive : 0 < width) (word : BitVec width) :
    word = BitVec.intMin width ↔ word.toInt = -2 ^ (width - 1) := by
  rw [← BitVec.toInt_intMin_of_pos positive, BitVec.toInt_inj]

theorem signFill_eq (word : BitVec width) :
    signFill word = if word.toInt < 0 then BitVec.allOnes width else 0 := by
  obtain ⟨lower, upper⟩ := inRange_toInt word
  have power : (0 : ℤ) < 2 ^ (width - 1) := by positivity
  rw [signFill, BitVec.sshiftRight_eq, Int.shiftRight_eq_div_pow]
  push_cast
  split
  · rename_i negative
    have quotient : word.toInt / 2 ^ (width - 1) = -1 := by
      rw [Int.ediv_eq_iff_of_pos power]
      constructor <;> linarith
    rw [quotient, BitVec.ofInt_neg, ← BitVec.neg_one_eq_allOnes]
    rfl
  · rename_i nonneg
    rw [Int.ediv_eq_zero_of_lt (not_lt.mp nonneg) upper]
    rfl

theorem signFill_eq_iff (positive : 0 < width) (left right : BitVec width) :
    signFill left = signFill right ↔ (left.toInt < 0 ↔ right.toInt < 0) := by
  have wide : width ≠ 0 := positive.ne'
  rw [signFill_eq, signFill_eq]
  by_cases leftSign : left.toInt < 0 <;> by_cases rightSign : right.toInt < 0 <;>
    simp [leftSign, rightSign, wide]

theorem magnitude_eq (word : BitVec width) :
    magnitude word = if word.toInt < 0 then -word else word := by
  rw [magnitude, signFill_eq]
  split
  · rw [BitVec.xor_allOnes, BitVec.not_eq_neg_add, ← BitVec.neg_one_eq_allOnes]
    grind
  · grind [BitVec.xor_zero]

theorem toInt_magnitude {word : BitVec width}
    (proper : word ≠ BitVec.intMin width) :
    (magnitude word).toInt = |word.toInt| := by
  rw [magnitude_eq]
  split
  · rename_i negative
    rw [BitVec.toInt_neg_of_ne_intMin proper, abs_of_neg negative]
  · rename_i nonneg
    rw [abs_of_nonneg (not_lt.mp nonneg)]

/-- A checked quotient in range. -/
theorem checkedDiv_eq_some {left right : BitVec width} (wide : 1 < width)
    (divisor : right.toInt ≠ 0)
    (range : InRange width (left.toInt.tdiv right.toInt)) :
    ∃ quotient, checkedDiv left right = some quotient ∧
      quotient.toInt = left.toInt.tdiv right.toInt := by
  refine ⟨left.sdiv right, if_pos ⟨divisor, range⟩, ?_⟩
  apply BitVec.toInt_sdiv_of_ne_or_ne
  by_contra both
  push Not at both
  obtain ⟨least, unit⟩ := both
  have one : (-BitVec.ofNat width 1).toInt = -1 := by
    rw [BitVec.neg_one_eq_allOnes, BitVec.toInt_allOnes, if_pos (by omega)]
  have quotient : left.toInt.tdiv right.toInt = 2 ^ (width - 1) := by
    rw [unit, one, (toInt_eq_min_iff (by omega) left).mp least]
    simp
  exact absurd range.2 (not_lt.mpr quotient.ge)

end Magnitude

end SignedWords
