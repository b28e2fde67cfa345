import AdacHybridMsp430.IntegerPowers
import Mathlib.Data.BitVec

/-!
# Exponentiation without checks

`System.Exn_Int`, `System.Exn_LLI`, `System.Exp_Uns` and `System.Exp_LLU` have
the loop of the checked functions, with multiplications that wrap around.
-/

namespace AdacHybridMsp430

namespace IntegerPowers

open BinaryPowers SignedWords Target

section Wrapping

variable {width : ℕ}

def multiplyWrapping (state : Variables width) : Id (Variables width) :=
  { state with result := state.result * state.factor }

def squareWrapping (state : Variables width) : Id (Variables width) :=
  { state with factor := state.factor * state.factor }

/-- The common text of the four functions. -/
def expWrapping (left : BitVec width) (right : ℕ) : BitVec width :=
  if right ≠ 0 then
    (loop multiplyWrapping squareWrapping ⟨1, left⟩ right).run.result
  else 1

/-- `Exn_Integer`. -/
def exnInteger (left : Integer) (right : ℕ) : Integer :=
  expWrapping left right

/-- `Exn_Long_Long_Integer`. -/
def exnLongLongInteger (left : LongLongInteger) (right : ℕ) : LongLongInteger :=
  expWrapping left right

def expUnsigned (left : Unsigned) (right : ℕ) : Unsigned :=
  expWrapping left right

def expLongLongUnsigned (left : LongLongUnsigned) (right : ℕ) :
    LongLongUnsigned :=
  expWrapping left right

/-- What is left to multiply is the power. -/
def ComputesWrapping (left : BitVec width) (right : ℕ) (state : Variables width)
    (exp : ℕ) : Prop :=
  state.result * state.factor ^ exp = left ^ right

theorem expWrapping_eq (left : BitVec width) (right : ℕ) :
    expWrapping left right = left ^ right := by
  unfold expWrapping
  split
  · obtain ⟨last, ends, computes⟩ : ∃ last,
        loop multiplyWrapping squareWrapping ⟨1, left⟩ right = pure last ∧
          ComputesWrapping left right last 0 := by
      apply loop_spec (m := Id) (ComputesWrapping left right)
      · intro state exp computes
        refine ⟨_, rfl, ?_⟩
        rw [ComputesWrapping, ← computes]
        simp only
        ring
      · intro state exp _ computes
        refine ⟨_, rfl, ?_⟩
        rw [ComputesWrapping, ← computes]
        simp only
        ring
      · exact one_mul _
    rw [ends]
    rw [ComputesWrapping, pow_zero, mul_one] at computes
    exact computes
  · rename_i zero
    rw [not_not.mp zero, pow_zero]

theorem toInt_pow (left : BitVec width) (right : ℕ) :
    (left ^ right).toInt = (left.toInt ^ right).bmod (2 ^ width) := by
  induction right with
  | zero =>
      rw [pow_zero, pow_zero]
      exact BitVec.toInt_ofInt 1
  | succ right ih =>
      rw [pow_succ, BitVec.toInt_mul, ih, Int.bmod_mul_bmod, pow_succ]

theorem toNat_pow (left : BitVec width) (right : ℕ) :
    (left ^ right).toNat = left.toNat ^ right % 2 ^ width := by
  induction right with
  | zero => exact BitVec.toNat_ofNat 1 width
  | succ right ih =>
      rw [pow_succ, BitVec.toNat_mul, ih, Nat.mod_mul_mod, pow_succ]

/-- What a checked function returns, the unchecked one returns. -/
theorem expWrapping_of_exp (wide : 1 < width) {left power : BitVec width}
    {right : ℕ} (returned : exp left right = some power) :
    expWrapping left right = power := by
  apply BitVec.eq_of_toInt_eq
  rw [expWrapping_eq, toInt_pow, ← exp_eq_some wide returned,
    BitVec.toInt_bmod_cancel]

/-- The signed powers wrap around into the range of the type, and are those of the
checked functions where these return; the unsigned powers are reduced by the
number of words. -/
theorem powers_wrap :
    (∀ (left : Integer) (right : ℕ),
      (exnInteger left right).toInt = (left.toInt ^ right).bmod (2 ^ 32) ∧
      ∀ power, expInteger left right = some power → exnInteger left right = power) ∧
    (∀ (left : LongLongInteger) (right : ℕ),
      (exnLongLongInteger left right).toInt = (left.toInt ^ right).bmod (2 ^ 64) ∧
      ∀ power, expLongLongInteger left right = some power →
        exnLongLongInteger left right = power) ∧
    (∀ (left : Unsigned) (right : ℕ),
      (expUnsigned left right).toNat = left.toNat ^ right % 2 ^ 32) ∧
    ∀ (left : LongLongUnsigned) (right : ℕ),
      (expLongLongUnsigned left right).toNat = left.toNat ^ right % 2 ^ 64 := by
  refine ⟨fun left right => ⟨?_, ?_⟩, fun left right => ⟨?_, ?_⟩,
    fun left right => ?_, fun left right => ?_⟩
  · rw [exnInteger, expWrapping_eq, toInt_pow]
  · exact fun power returned => expWrapping_of_exp (by decide) returned
  · rw [exnLongLongInteger, expWrapping_eq, toInt_pow]
  · exact fun power returned => expWrapping_of_exp (by decide) returned
  · rw [expUnsigned, expWrapping_eq, toNat_pow]
  · rw [expLongLongUnsigned, expWrapping_eq, toNat_pow]

end Wrapping

end IntegerPowers

end AdacHybridMsp430
