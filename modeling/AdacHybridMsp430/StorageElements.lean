import AdacHybridMsp430.RuntimeSystem
import AdacHybridMsp430.SignedWords
import Mathlib.Data.Int.ModEq

/-!
# The modulus of an address

The operator `"mod"` of `System.Storage_Elements`, compiled without checks.
-/

namespace AdacHybridMsp430

namespace StorageElements

open SignedWords Target

/-- `Storage_Offset`, a signed type of the size of an address. -/
abbrev StorageOffset := BitVec 16

/-- What ends a call without a result. -/
inductive Fault
  | exception
  | divisionByZero
deriving DecidableEq

/-- The predefined operator of the modular types. -/
def addressMod (left right : Address) : Except Fault Address :=
  if right = 0 then .error .divisionByZero else .ok (left % right)

/-- `"mod"`.  The statement that raised `Constraint_Error` in the second branch
is a comment in the source. -/
def mod (left : Address) (right : StorageOffset) :
    Except Fault StorageOffset := do
  if 0 < right.toInt then
    addressMod left right
  else
    let remainder ← addressMod left (-right)
    .ok (-remainder)

/-- The meaning of the operator: a remainder of the sign of the divisor, and an
exception for the divisor zero. -/
def MeansMod (left : Address) (right : StorageOffset) :
    Except Fault StorageOffset → Prop
  | .ok remainder =>
      remainder.toInt ≡ left.toNat [ZMOD |right.toInt|] ∧
        |remainder.toInt| < |right.toInt| ∧
        (remainder.toInt = 0 ∨ remainder.toInt.sign = right.toInt.sign)
  | .error fault => right = 0 ∧ fault = .exception

theorem addressMod_of_ne (left : Address) {right : Address} (nonzero : right ≠ 0) :
    addressMod left right = .ok (left % right) :=
  if_neg nonzero

/-- A remainder below a magnitude is a non-negative offset. -/
theorem toInt_mod (left : Address) {right : Address} (positive : 0 < right.toNat)
    (size : right.toNat ≤ 2 ^ 15) :
    (left % right).toInt = left.toNat % right.toNat := by
  have below := Nat.mod_lt left.toNat positive
  rw [BitVec.toInt_eq_toNat_cond, BitVec.toNat_umod, if_pos (by omega)]
  push_cast
  rfl

theorem abs_toInt_le (right : StorageOffset) : |right.toInt| ≤ 2 ^ 15 := by
  have lower := BitVec.le_toInt right
  have upper := right.toInt_lt
  rw [abs_le]
  constructor <;> omega

/-- A positive divisor leaves the remainder of the addresses. -/
theorem mod_of_pos (left : Address) {right : StorageOffset}
    (positive : 0 < right.toInt) :
    ∃ remainder, mod left right = .ok remainder ∧
      remainder.toInt = left.toNat % |right.toInt| := by
  have size := abs_toInt_le right
  have nat : (right.toNat : ℤ) = |right.toInt| := by
    rw [toNat_of_nonneg positive.le, Int.natCast_natAbs]
  have magnitude : 0 < |right.toInt| := abs_pos.mpr positive.ne'
  have toNat_pos : 0 < right.toNat := by omega
  have nonzero : right ≠ 0 := by
    rintro rfl
    exact absurd positive (by decide)
  refine ⟨left % right, ?_, ?_⟩
  · rw [mod, if_pos positive, addressMod_of_ne left nonzero]
  · have small : right.toNat ≤ 2 ^ 15 := by omega
    rw [toInt_mod left toNat_pos small, nat]

/-- A negative divisor leaves the opposite of the remainder of its magnitude. -/
theorem mod_of_neg (left : Address) {right : StorageOffset}
    (negative : right.toInt < 0) :
    ∃ remainder, mod left right = .ok remainder ∧
      remainder.toInt = -(left.toNat % |right.toInt|) := by
  have size := abs_toInt_le right
  have nat : ((-right).toNat : ℤ) = |right.toInt| := by
    rw [toNat_neg_of_neg negative, Int.natCast_natAbs]
  have magnitude : 0 < |right.toInt| := abs_pos.mpr negative.ne
  have toNat_pos : 0 < (-right).toNat := by omega
  have nonzero : -right ≠ 0 := by
    intro zero
    rw [zero] at toNat_pos
    exact absurd toNat_pos (by decide)
  refine ⟨-(left % -right), ?_, ?_⟩
  · rw [mod, if_neg (by omega), addressMod_of_ne left nonzero]
    rfl
  · have value := toInt_mod left toNat_pos (by omega)
    rw [BitVec.toInt_neg_of_ne_intMin, value, nat]
    intro least
    rw [least, nat] at value
    have nonneg := Int.emod_nonneg (left.toNat : ℤ) magnitude.ne'
    rw [← value] at nonneg
    exact absurd nonneg (by decide)

/-- No exception is raised for the divisor zero. -/
theorem mod_zero (left : Address) : mod left 0 = .error .divisionByZero := rfl

/-- The opposite of the remainder has the right congruence in two cases. -/
theorem neg_emod_modEq_iff (value divisor : ℤ) :
    -(value % divisor) ≡ value [ZMOD divisor] ↔ divisor ∣ 2 * value := by
  have split := Int.emod_add_mul_ediv value divisor
  rw [Int.modEq_iff_dvd]
  have shift : 2 * value = value - -(value % divisor) + divisor * (value / divisor) := by
    linear_combination -split
  rw [shift]
  exact (Int.dvd_add_left (dvd_mul_right divisor _)).symm

/-- The operator has its meaning for the positive divisors, and for the negative
ones whose magnitude divides twice the address. -/
theorem meansMod_iff (left : Address) (right : StorageOffset) :
    MeansMod left right (mod left right) ↔
      0 < right.toInt ∨ (right.toInt < 0 ∧ |right.toInt| ∣ 2 * left.toNat) := by
  rcases lt_trichotomy right.toInt 0 with negative | zero | positive
  · obtain ⟨remainder, returned, value⟩ := mod_of_neg left negative
    have magnitude : 0 < |right.toInt| := abs_pos.mpr negative.ne
    have lower := Int.emod_nonneg (left.toNat : ℤ) magnitude.ne'
    have upper := Int.emod_lt_of_pos (left.toNat : ℤ) magnitude
    have size : |remainder.toInt| < |right.toInt| := by
      rwa [value, abs_neg, abs_of_nonneg lower]
    have sign : remainder.toInt = 0 ∨ remainder.toInt.sign = right.toInt.sign := by
      rw [value, Int.sign_eq_neg_one_of_neg negative]
      rcases lower.eq_or_lt with zero | positive
      · exact Or.inl (neg_eq_zero.mpr zero.symm)
      · exact Or.inr (Int.sign_eq_neg_one_of_neg (neg_neg_of_pos positive))
    rw [returned, MeansMod, and_iff_left ⟨size, sign⟩, value, neg_emod_modEq_iff]
    simp only [negative, negative.not_gt, true_and, false_or]
  · have same : right = 0 := BitVec.eq_of_toInt_eq zero
    rw [same, mod_zero]
    simp [MeansMod]
  · obtain ⟨remainder, returned, value⟩ := mod_of_pos left positive
    have magnitude : 0 < |right.toInt| := abs_pos.mpr positive.ne'
    have lower := Int.emod_nonneg (left.toNat : ℤ) magnitude.ne'
    have upper := Int.emod_lt_of_pos (left.toNat : ℤ) magnitude
    rw [returned, MeansMod, value]
    simp only [positive, true_or, iff_true]
    refine ⟨Int.mod_modEq _ _, by rwa [abs_of_nonneg lower], ?_⟩
    rw [Int.sign_eq_one_of_pos positive]
    rcases lower.eq_or_lt with zero | remains
    · exact Or.inl zero.symm
    · exact Or.inr (Int.sign_eq_one_of_pos remains)

/-- The remainder of 1 by -3 is not -1, and the divisor zero is divided by. -/
theorem not_meansMod :
    ¬ MeansMod 1 (-3) (mod 1 (-3)) ∧ ¬ MeansMod 1 0 (mod 1 0) := by
  constructor
  · rintro ⟨congruent, _⟩
    exact absurd congruent (by decide)
  · rintro ⟨_, fault⟩
    exact nomatch fault

end StorageElements

end AdacHybridMsp430
