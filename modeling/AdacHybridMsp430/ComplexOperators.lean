import AdacHybridMsp430.BinaryFloatScaling
import AdacHybridMsp430.ComplexTypes

/-!
# Symmetries of the complex operators

Conjugation commutes with every rounding, so that the operators respect it
exactly.  The operators between operands of different types are those between
complex numbers, also where a part overflows.
-/

namespace AdacHybridMsp430

namespace ComplexTypes

open BinaryFloats BoundedLoops Exponentiation Function Target

section Conjugates

variable {format : Format}

/-- The conjugate of an operand of any type. -/
def Operand.conjugate : Operand format → Operand format
  | .real value => .real value
  | .imaginary value => .imaginary value.neg
  | .complex value => .complex (ComplexTypes.conjugate value)

/-- An operand that is not an imaginary or real zero. -/
def Operand.Nonzero : Operand format → Prop
  | .real value => value.Nonzero
  | .imaginary value => value.Nonzero
  | .complex _ => True

theorem neg_sub (first second : Value format) :
    first.neg.sub second.neg = (first.sub second).neg :=
  Value.add_neg first second.neg

theorem conjugate_add (left right : Operand format) :
    (add left right).conjugate = add left.conjugate right.conjugate := by
  cases left <;> cases right <;>
    simp [add, Operand.conjugate, ComplexTypes.conjugate, Value.add_neg]

theorem conjugate_sub (left right : Operand format) :
    (sub left right).conjugate = sub left.conjugate right.conjugate := by
  cases left <;> cases right <;>
    simp [sub, Operand.conjugate, ComplexTypes.conjugate, neg_sub]

variable (inst : Instance)

theorem conjugate_times (left right : Complex inst.format) :
    conjugate (times inst left right) =
      times inst (conjugate left) (conjugate right) := by
  ext
  · simp [times, conjugate, Value.mul_neg, Value.neg_mul, Value.neg_div]
  · simp [times, conjugate, Value.neg_mul, Value.mul_neg, Value.neg_div,
      Value.add_neg, apply_ite Value.neg]

theorem conjugate_mul (left right : Operand inst.format) :
    (mul inst left right).conjugate =
      mul inst left.conjugate right.conjugate := by
  cases left <;> cases right
  case complex.complex left right =>
    exact congrArg Operand.complex (conjugate_times inst left right)
  all_goals
    simp [mul, Operand.conjugate, ComplexTypes.conjugate, Value.neg_mul, Value.mul_neg]

theorem squares_conjugate (right : Complex format) :
    squares (conjugate right) = squares right := by
  simp [squares, conjugate, Value.neg_mul, Value.mul_neg]

theorem conjugate_realOver (left : Value format) (right : Complex format) :
    conjugate (realOver left right) = realOver left (conjugate right) := by
  rw [realOver, realOver, squares_conjugate]
  simp [conjugate, Value.mul_neg, Value.neg_div]

theorem isZero_neg (value : Value format) : isZero value.neg = isZero value := by
  cases value with
  | finite value representable =>
      rw [Bool.eq_iff_iff, Value.neg, isZero_finite, isZero_finite]
      exact neg_eq_zero
  | infinite negative =>
      rw [Value.neg, isZero_infinite, isZero_infinite]
  | nan => rfl

theorem conjugate_div (left : Operand format) {right : Operand format}
    (nonzero : right.Nonzero) :
    (div left right).map Operand.conjugate = div left.conjugate right.conjugate := by
  cases right with
  | real right =>
      cases left <;>
        simp [div, Except.map, Operand.conjugate, ComplexTypes.conjugate, Value.neg_div]
  | imaginary right =>
      have sign := fun left => Value.div_neg left right nonzero
      cases left <;>
        simp [div, Except.map, Operand.conjugate, ComplexTypes.conjugate,
          Value.neg_div, sign]
  | complex right =>
      have same := squares_conjugate right
      cases left with
      | real left =>
          exact congrArg (Except.ok ∘ Operand.complex) (conjugate_realOver left right)
      | imaginary left =>
          simp only [div, Operand.conjugate, same]
          simp [Except.map, Operand.conjugate, ComplexTypes.conjugate, Value.neg_mul,
            Value.mul_neg, Value.neg_div]
      | complex left =>
          simp only [div, Operand.conjugate, same]
          simp only [ComplexTypes.conjugate, isZero_neg]
          split
          · rfl
          · simp [Except.map, Operand.conjugate, ComplexTypes.conjugate, Value.neg_mul,
              Value.mul_neg, neg_sub, Value.neg_div]

/-- The variables of the loop for the conjugate of the left operand. -/
def PowerState.conjugate (state : PowerState format) : PowerState format :=
  ⟨ComplexTypes.conjugate state.result, ComplexTypes.conjugate state.factor, state.exp⟩

theorem conjugate_powerPass (state : PowerState inst.format) :
    powerPass inst state.conjugate = (powerPass inst state).conjugate := by
  unfold powerPass
  by_cases odd : state.exp.srem 2 ≠ 0
  · rw [if_pos odd, if_pos (show state.conjugate.exp.srem 2 ≠ 0 from odd)]
    simp only [PowerState.conjugate, conjugate_times]
  · rw [if_neg odd, if_neg (show ¬ state.conjugate.exp.srem 2 ≠ 0 from odd)]
    simp only [PowerState.conjugate, conjugate_times]

theorem conjugate_power (fuel : ℕ) (left : Complex inst.format) (right : Integer) :
    (power inst fuel left right).map conjugate =
      power inst fuel (conjugate left) right := by
  have start : powerStart (conjugate left) right = (powerStart left right).conjugate := by
    simp [powerStart, PowerState.conjugate, conjugate, zero, Value.neg]
  rw [power, power, start, whileLoop_map PowerState.conjugate (fun _ => rfl)
    (conjugate_powerPass inst), Option.map_map, Option.map_map]
  congr 1
  funext state
  dsimp only [comp_apply]
  split
  · rfl
  · exact conjugate_realOver one state.result

/-- The conjugate of a result is the result for the conjugates of the operands, for
every operator and all machine values, also where parts overflow. -/
theorem conjugates (fuel : ℕ) (exponent : Integer) (base : Complex inst.format)
    (left right : Operand inst.format) :
    (add left right).conjugate = add left.conjugate right.conjugate ∧
      (sub left right).conjugate = sub left.conjugate right.conjugate ∧
      (mul inst left right).conjugate = mul inst left.conjugate right.conjugate ∧
      (right.Nonzero →
        (div left right).map Operand.conjugate =
          div left.conjugate right.conjugate) ∧
      (power inst fuel base exponent).map conjugate =
        power inst fuel (conjugate base) exponent :=
  ⟨conjugate_add left right, conjugate_sub left right,
    conjugate_mul inst left right, conjugate_div left,
    conjugate_power inst fuel base exponent⟩

end Conjugates

section Operands

variable {format : Format}

def IsFinite (value : Value format) : Prop :=
  ∃ x, value.rational = some x

def Operand.Finite : Operand format → Prop
  | .real value => IsFinite value
  | .imaginary value => IsFinite value
  | .complex value => IsFinite value.re ∧ IsFinite value.im

theorem add_comm (left right : Operand format) : add left right = add right left := by
  cases left <;> cases right <;> simp [add, Value.add_comm]

theorem sub_eq_add_neg (left right : Operand format) :
    sub left right = add left (neg right) := by
  cases left <;> cases right <;> rfl

end Operands

section Scaling

variable {left : Complex complexTypes.format} {right : Value complexTypes.format}

theorem times_comm (inst : Instance) (left right : Complex inst.format) :
    times inst left right = times inst right left := by
  ext
  · simp only [times, Value.mul_comm]
  · simp only [times, Value.mul_comm, Value.add_comm]

theorem mul_comm (inst : Instance) (left right : Operand inst.format) :
    mul inst left right = mul inst right left := by
  cases left <;> cases right
  case complex.complex left right =>
    exact congrArg Operand.complex (times_comm inst left right)
  all_goals
    simp [mul, Value.mul_comm]

end Scaling

end ComplexTypes

end AdacHybridMsp430
