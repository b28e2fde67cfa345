import AdacHybridMsp430.BinaryFloats
import AdacHybridMsp430.RuntimeSystem
import Mathlib.Data.Nat.Digits.Defs

/-!
# Exponentiation of floating-point numbers

The functions of `System.Exn_LLF`, over the floating-point types of a target.
They return for every exponent but `Integer'First`, whose negation wraps around
to itself, so that the recursion for negative exponents never ends.
-/

namespace AdacHybridMsp430

namespace Exponentiation

open Target

/-- The operations of a floating-point type that the unit uses. -/
structure FloatType (F : Type*) where
  one : F
  mul : F → F → F
  div : F → F → F
  machine : F → F

/-- The types `Float` and `Long_Float` and the conversions between them. -/
structure FloatTypes (F L : Type*) where
  float : FloatType F
  longFloat : FloatType L
  toFloat : L → F
  toLongFloat : F → L

/-- What a call returns, with the exponents of the recursive calls that it made
and the passes of the loop of `Exp`. -/
structure Run (F : Type*) where
  value : F
  calls : List Integer
  passes : ℕ

/-- The variables of `Exp`, with the passes of its loop. -/
structure ExpState (F : Type*) where
  result : F
  factor : F
  exp : ℕ
  passes : ℕ

section Functions

variable {F L : Type*}

/-- The loop of `Exp`, for as many passes as there is fuel. -/
def expLoop (type : FloatType F) : ℕ → ExpState F → Option (ExpState F)
  | 0, _ => none
  | fuel + 1, state =>
      let result :=
        if state.exp % 2 ≠ 0 then type.mul state.result state.factor
        else state.result
      let exp := state.exp / 2
      let passes := state.passes + 1
      if exp = 0 then
        some ⟨result, state.factor, exp, passes⟩
      else
        expLoop type fuel
          ⟨result, type.mul state.factor state.factor, exp, passes⟩

def exp (type : FloatType F) (fuel : ℕ) (left : F) (right : ℕ) :
    Option (Run F) :=
  (expLoop type fuel ⟨type.one, left, right, 0⟩).map fun state =>
    ⟨state.result, [], state.passes⟩

/-- The common text of `Exn_Float` and `Exn_Long_Float`; `others` computes the
powers from the fifth on.  Every recursive call takes some fuel. -/
def exn (type : FloatType F) (others : ℕ → F → ℕ → Option (Run F)) :
    ℕ → F → Integer → Option (Run F)
  | 0, _, _ => none
  | fuel + 1, left, right =>
      if right = 0 then
        some ⟨type.one, [], 0⟩
      else if right = 1 then
        some ⟨left, [], 0⟩
      else if right = 2 then
        some ⟨type.machine (type.mul left left), [], 0⟩
      else if right = 3 then
        some ⟨type.machine (type.mul (type.mul left left) left), [], 0⟩
      else if right = 4 then
        let temp := type.machine (type.mul left left)
        some ⟨type.machine (type.mul temp temp), [], 0⟩
      else if right.toInt < 0 then
        (exn type others fuel left (-right)).map fun run =>
          ⟨type.machine (type.div type.one run.value), -right :: run.calls,
            run.passes⟩
      else
        (others fuel left right.toNat).map fun run =>
          ⟨type.machine run.value, run.calls, run.passes⟩

def exnFloat (types : FloatTypes F L) : ℕ → F → Integer → Option (Run F) :=
  exn types.float fun fuel left right => exp types.float fuel left right

def exnLongFloat (types : FloatTypes F L) : ℕ → L → Integer → Option (Run L) :=
  exn types.longFloat fun fuel left right =>
    (exp types.float fuel (types.toFloat left) right).map fun run =>
      ⟨types.toLongFloat run.value, run.calls, run.passes⟩

end Functions

/-- A call returns, given enough fuel.  It makes at most one recursive call, on
a non-negative exponent, and as many passes of the loop as the absolute value
of the exponent has binary digits, if it is not one of the special cases. -/
def Returns {F : Type*} (call : ℕ → Option (Run F)) (right : Integer) : Prop :=
  ∃ fuel run, call fuel = some run ∧
    run.calls.length ≤ 1 ∧
    (∀ exponent ∈ run.calls, 0 ≤ exponent.toInt) ∧
    run.passes = if right.toInt.natAbs ≤ 4 then 0
      else (Nat.digits 2 right.toInt.natAbs).length

section Termination

variable {F L : Type*}

/-- The loop takes one pass for each binary digit. -/
theorem expLoop_passes (type : FloatType F) (state : ExpState F)
    (positive : 0 < state.exp) {fuel : ℕ} (enough : state.exp ≤ fuel) :
    ∃ last, expLoop type fuel state = some last ∧
      last.passes = state.passes + (Nat.digits 2 state.exp).length := by
  induction fuel generalizing state with
  | zero => omega
  | succ fuel ih =>
      rw [expLoop, Nat.digits_def' (by decide) positive]
      by_cases done : state.exp / 2 = 0
      · rw [if_pos done]
        exact ⟨_, rfl, by simp [done]⟩
      · rw [if_neg done]
        obtain ⟨last, returned, passes⟩ := ih
          ⟨_, type.mul state.factor state.factor, state.exp / 2,
            state.passes + 1⟩ (Nat.pos_of_ne_zero done)
          (by dsimp only; omega)
        refine ⟨last, returned, ?_⟩
        rw [passes, List.length_cons]
        exact Nat.add_right_comm _ _ _

theorem exp_passes (type : FloatType F) (left : F) {right : ℕ}
    (positive : 0 < right) :
    ∃ run, exp type right left right = some run ∧ run.calls = [] ∧
      run.passes = (Nat.digits 2 right).length := by
  obtain ⟨last, returned, passes⟩ := expLoop_passes type
    ⟨type.one, left, right, 0⟩ positive le_rfl
  refine ⟨⟨last.result, [], last.passes⟩, ?_, rfl, by simpa using passes⟩
  rw [exp, returned]
  rfl

variable (type : FloatType F) (others : ℕ → F → ℕ → Option (Run F))

/-- The exponents that the case statement lists. -/
theorem natAbs_le_four_iff {right : Integer} (nonneg : 0 ≤ right.toInt) :
    right.toInt.natAbs ≤ 4 ↔
      right = 0 ∨ right = 1 ∨ right = 2 ∨ right = 3 ∨ right = 4 := by
  simp only [← BitVec.toInt_inj]
  have zero : (0 : Integer).toInt = 0 := rfl
  have one : (1 : Integer).toInt = 1 := rfl
  have two : (2 : Integer).toInt = 2 := rfl
  have three : (3 : Integer).toInt = 3 := rfl
  have four : (4 : Integer).toInt = 4 := rfl
  omega

theorem natAbs_toInt {right : Integer} (nonneg : 0 ≤ right.toInt) :
    right.toInt.natAbs = right.toNat := by
  rw [BitVec.toInt_eq_toNat_cond] at nonneg ⊢
  have bound := right.isLt
  split at nonneg <;> omega

/-- The last alternative of the case statement. -/
theorem exn_others (fuel : ℕ) (left : F) {right : Integer}
    (nonneg : 0 ≤ right.toInt) (large : 4 < right.toNat) :
    exn type others (fuel + 1) left right =
      (others fuel left right.toNat).map fun run =>
        ⟨type.machine run.value, run.calls, run.passes⟩ := by
  have listed := (natAbs_le_four_iff nonneg).not.mp (by
    rw [natAbs_toInt nonneg]
    omega)
  simp only [not_or] at listed
  obtain ⟨ne0, ne1, ne2, ne3, ne4⟩ := listed
  rw [exn, if_neg ne0, if_neg ne1, if_neg ne2, if_neg ne3, if_neg ne4,
    if_neg (not_lt.mpr nonneg)]

/-- A non-negative exponent takes no recursive call. -/
theorem exn_nonneg
    (power : ∀ left right, 0 < right → ∃ run,
      others right left right = some run ∧ run.calls = [] ∧
        run.passes = (Nat.digits 2 right).length)
    (left : F) {right : Integer} (nonneg : 0 ≤ right.toInt) :
    ∃ run, exn type others (right.toNat + 1) left right = some run ∧
      run.calls = [] ∧
      run.passes = if right.toInt.natAbs ≤ 4 then 0
        else (Nat.digits 2 right.toInt.natAbs).length := by
  have natAbs := natAbs_toInt nonneg
  by_cases special : right.toInt.natAbs ≤ 4
  · rw [if_pos special]
    rcases (natAbs_le_four_iff nonneg).mp special with
      rfl | rfl | rfl | rfl | rfl <;>
      exact ⟨_, rfl, rfl, rfl⟩
  · rw [if_neg special, natAbs]
    obtain ⟨run, returned, calls, passes⟩ := power left right.toNat (by omega)
    refine ⟨⟨type.machine run.value, run.calls, run.passes⟩, ?_, calls, passes⟩
    rw [exn_others type others _ left nonneg (by omega), returned]
    rfl

theorem exn_negative (fuel : ℕ) (left : F) {right : Integer}
    (negative : right.toInt < 0) :
    exn type others (fuel + 1) left right =
      (exn type others fuel left (-right)).map fun run =>
        ⟨type.machine (type.div type.one run.value), -right :: run.calls,
          run.passes⟩ := by
  have different : ∀ small : Integer, 0 ≤ small.toInt → right ≠ small := by
    rintro small nonneg rfl
    omega
  rw [exn, if_neg (different 0 (by decide)), if_neg (different 1 (by decide)),
    if_neg (different 2 (by decide)), if_neg (different 3 (by decide)),
    if_neg (different 4 (by decide)), if_pos negative]

/-- The negation of `Integer'First` is `Integer'First`. -/
theorem exn_integerFirst (fuel : ℕ) (left : F) :
    exn type others fuel left integerFirst = none := by
  induction fuel with
  | zero => rfl
  | succ fuel ih =>
      have wraps : -integerFirst = integerFirst := by decide
      rw [exn_negative type others fuel left (by decide), wraps, ih]
      rfl

theorem toInt_neg_of_ne {right : Integer} (different : right ≠ integerFirst) :
    (-right).toInt = -right.toInt := by
  apply BitVec.toInt_neg_of_ne_intMin
  exact different

/-- A call returns for all exponents but `Integer'First`. -/
theorem returns_exn_iff
    (power : ∀ left right, 0 < right → ∃ run,
      others right left right = some run ∧ run.calls = [] ∧
        run.passes = (Nat.digits 2 right).length)
    (left : F) (right : Integer) :
    Returns (fun fuel => exn type others fuel left right) right ↔
      right ≠ integerFirst := by
  constructor
  · rintro ⟨fuel, run, returned, _⟩ rfl
    simp only [exn_integerFirst, reduceCtorEq] at returned
  · intro different
    rcases le_or_gt 0 right.toInt with nonneg | negative
    · obtain ⟨run, returned, calls, passes⟩ :=
        exn_nonneg type others power left nonneg
      exact ⟨_, run, returned, by simp [calls], by simp [calls], passes⟩
    · have opposite := toInt_neg_of_ne different
      have nonneg : 0 ≤ (-right).toInt := by
        omega
      obtain ⟨run, returned, calls, passes⟩ :=
        exn_nonneg type others power left nonneg
      refine ⟨(-right).toNat + 1 + 1, _,
        (exn_negative type others _ left negative).trans
          (congrArg _ returned), ?_, ?_, ?_⟩
      · simp [calls]
      · simpa [calls] using nonneg
      · simpa [opposite] using passes

end Termination

/-- Both functions return for every exponent but `Integer'First`. -/
theorem returns_iff {F L : Type*} (types : FloatTypes F L) (left : F)
    (longLeft : L) (right : Integer) :
    (Returns (fun fuel => exnFloat types fuel left right) right ↔
      right ≠ integerFirst) ∧
    (Returns (fun fuel => exnLongFloat types fuel longLeft right) right ↔
      right ≠ integerFirst) := by
  constructor
  · exact returns_exn_iff _ _ (fun left _ => exp_passes types.float left) left
      right
  · refine returns_exn_iff _ _ ?_ longLeft right
    intro left right positive
    obtain ⟨run, returned, calls, passes⟩ :=
      exp_passes types.float (types.toFloat left) positive
    exact ⟨_, by rw [returned]; rfl, calls, passes⟩

section Formats

open BinaryFloats

/-- `Float`: 24 bits of significand, in 32 bits. -/
def floatFormat : Format where
  precision := 24
  minExponent := -149
  maxExponent := 128
  precision_pos := by decide
  minExponent_nonpos := by decide
  maxExponent_pos := by decide

/-- `Long_Float`: 53 bits of significand, in 64 bits. -/
def longFloatFormat : Format where
  precision := 53
  minExponent := -1074
  maxExponent := 1024
  precision_pos := by decide
  minExponent_nonpos := by decide
  maxExponent_pos := by decide

/-- The operations of a format; `Machine` has no extra precision to remove. -/
def floatType (format : Format) : FloatType (Value format) where
  one := .finite 1 representable_one
  mul := Value.mul
  div := Value.div
  machine := id

def machineTypes : FloatTypes (Value floatFormat) (Value longFloatFormat) where
  float := floatType floatFormat
  longFloat := floatType longFloatFormat
  toFloat := Value.convert floatFormat
  toLongFloat := Value.convert longFloatFormat

end Formats

/-- `1.0 ** Integer'First` does not return. -/
theorem not_returns_integerFirst :
    ¬ Returns (fun fuel =>
      exnLongFloat machineTypes fuel machineTypes.longFloat.one integerFirst)
      integerFirst := by
  rintro ⟨fuel, run, returned, _⟩
  simp only [exnLongFloat, exn_integerFirst, reduceCtorEq] at returned

end Exponentiation

end AdacHybridMsp430
