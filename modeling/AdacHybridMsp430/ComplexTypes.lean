import AdacHybridMsp430.BinaryFloatIntegers
import AdacHybridMsp430.BinaryFloatSums
import AdacHybridMsp430.BoundedLoops
import AdacHybridMsp430.Exponentiation
import AdacHybridMsp430.FloatComparisons

/-!
# Complex numbers

The operators of `Ada.Numerics.Generic_Complex_Types` between complex, imaginary
and real operands, over the machine values of a format.  The formats overflow to
infinities, so that no operation but a division by a complex number raises an
exception.  Comparisons are those of the bridge functions, for which what is not a
number equals everything: the division also raises the exception for a divisor
whose parts are not numbers.  Zeros carry no sign, and the results are those of the
code up to the sign of zeros, unless a real or imaginary divisor is zero.
-/

namespace AdacHybridMsp430

namespace ComplexTypes

open BinaryFloats BoundedLoops Exponentiation FloatComparisons Function Target

/-- What an instance takes from its type `Real`: the format, and the constant
`Scale` of the multiplication. -/
structure Instance where
  format : Format
  wide : (format.precision : ℤ) < format.maxExponent
  scale : Value format

/-- A complex number in Cartesian form. -/
@[ext]
structure Complex (format : Format) where
  re : Value format
  im : Value format

/-- The operands from whose types the overloaded operators are resolved. -/
inductive Operand (format : Format)
  | real (value : Value format)
  | imaginary (value : Value format)
  | complex (value : Complex format)

inductive Exception
  | constraintError
  deriving DecidableEq

section Values

variable {format : Format}

def zero : Value format :=
  .finite 0 representable_zero

def one : Value format :=
  .finite 1 representable_one

/-- What the bridge functions take a machine value for. -/
def datum : Value format → Datum
  | .finite value _ => number value
  | .infinite negative => some (if negative then ⊥ else ⊤)
  | .nan => none

/-- The result of the bridge function that a comparison of machine values calls. -/
def compared (x y : Value format) : ℤ :=
  lowBits (cmp (datum x) (datum y))

/-- `x <= y`, which holds if one of them is not a number. -/
def isLe (x y : Value format) : Bool :=
  compared x y ≤ 0

/-- `x = 0.0`, which holds if `x` is not a number. -/
def isZero (x : Value format) : Bool :=
  compared x zero = 0

def conjugate (x : Complex format) : Complex format :=
  ⟨x.re, x.im.neg⟩

end Values

section Operators

variable {format : Format}

def neg : Operand format → Operand format
  | .real right => .real right.neg
  | .imaginary right => .imaginary right.neg
  | .complex right => .complex ⟨right.re.neg, right.im.neg⟩

def add : Operand format → Operand format → Operand format
  | .complex left, .complex right =>
      .complex ⟨left.re.add right.re, left.im.add right.im⟩
  | .imaginary left, .imaginary right => .imaginary (left.add right)
  | .complex left, .real right => .complex ⟨left.re.add right, left.im⟩
  | .real left, .complex right => .complex ⟨left.add right.re, right.im⟩
  | .complex left, .imaginary right => .complex ⟨left.re, left.im.add right⟩
  | .imaginary left, .complex right => .complex ⟨right.re, left.add right.im⟩
  | .imaginary left, .real right => .complex ⟨right, left⟩
  | .real left, .imaginary right => .complex ⟨left, right⟩
  | .real left, .real right => .real (left.add right)

def sub : Operand format → Operand format → Operand format
  | .complex left, .complex right =>
      .complex ⟨left.re.sub right.re, left.im.sub right.im⟩
  | .imaginary left, .imaginary right => .imaginary (left.sub right)
  | .complex left, .real right => .complex ⟨left.re.sub right, left.im⟩
  | .real left, .complex right => .complex ⟨left.sub right.re, right.im.neg⟩
  | .complex left, .imaginary right => .complex ⟨left.re, left.im.sub right⟩
  | .imaginary left, .complex right =>
      .complex ⟨right.re.neg, left.sub right.im⟩
  | .imaginary left, .real right => .complex ⟨right.neg, left⟩
  | .real left, .imaginary right => .complex ⟨left, right.neg⟩
  | .real left, .real right => .real (left.sub right)

variable (inst : Instance)

/-- `R'Last`. -/
def last : Value inst.format :=
  .finite inst.format.greatest (representable_greatest inst.wide.le)

/-- The multiplication of complex numbers, which scales the operands if a part
overflows. -/
def times (left right : Complex inst.format) : Complex inst.format :=
  let scale := inst.scale
  let x := (left.re.mul right.re).sub (left.im.mul right.im)
  let y := (left.re.mul right.im).add (left.im.mul right.re)
  ⟨if isLe x.abs (last inst) then x
    else (scale.mul scale).mul
      (((left.re.div scale).mul (right.re.div scale)).sub
        ((left.im.div scale).mul (right.im.div scale))),
    if isLe y.abs (last inst) then y
    else (scale.mul scale).mul
      (((left.re.div scale).mul (right.im.div scale)).add
        ((left.im.div scale).mul (right.re.div scale)))⟩

def mul : Operand inst.format → Operand inst.format → Operand inst.format
  | .complex left, .complex right => .complex (times inst left right)
  | .imaginary left, .imaginary right => .real (left.mul right).neg
  | .complex left, .real right =>
      .complex ⟨left.re.mul right, left.im.mul right⟩
  | .real left, .complex right =>
      .complex ⟨left.mul right.re, left.mul right.im⟩
  | .complex left, .imaginary right =>
      .complex ⟨(left.im.mul right).neg, left.re.mul right⟩
  | .imaginary left, .complex right =>
      .complex ⟨(left.mul right.im).neg, left.mul right.re⟩
  | .imaginary left, .real right => .imaginary (left.mul right)
  | .real left, .imaginary right => .imaginary (left.mul right)
  | .real left, .real right => .real (left.mul right)

/-- `C ** 2 + D ** 2`. -/
def squares (right : Complex format) : Value format :=
  (right.re.mul right.re).add (right.im.mul right.im)

/-- The division of a real number by a complex one. -/
def realOver (left : Value format) (right : Complex format) : Complex format :=
  ⟨(left.mul right.re).div (squares right),
    ((left.mul right.im).div (squares right)).neg⟩

def div : Operand format → Operand format → Except Exception (Operand format)
  | .complex left, .complex right =>
      if isZero right.re ∧ isZero right.im then .error .constraintError
      else .ok (.complex
        ⟨((left.re.mul right.re).add (left.im.mul right.im)).div (squares right),
          ((left.im.mul right.re).sub (left.re.mul right.im)).div
            (squares right)⟩)
  | .imaginary left, .imaginary right => .ok (.real (left.div right))
  | .complex left, .real right =>
      .ok (.complex ⟨left.re.div right, left.im.div right⟩)
  | .real left, .complex right => .ok (.complex (realOver left right))
  | .complex left, .imaginary right =>
      .ok (.complex ⟨left.im.div right, (left.re.div right).neg⟩)
  | .imaginary left, .complex right =>
      .ok (.complex ⟨(left.mul right.im).div (squares right),
        (left.mul right.re).div (squares right)⟩)
  | .imaginary left, .real right => .ok (.imaginary (left.div right))
  | .real left, .imaginary right => .ok (.imaginary (left.div right).neg)
  | .real left, .real right => .ok (.real (left.div right))

/-- The variables of `"**"`. -/
structure PowerState (format : Format) where
  result : Complex format
  factor : Complex format
  exp : Integer

def powerStart (left : Complex format) (right : Integer) : PowerState format :=
  ⟨⟨one, zero⟩, left, right⟩

/-- A pass of the loops, which are the same for both signs of the exponent. -/
def powerPass (state : PowerState inst.format) : PowerState inst.format where
  result :=
    if state.exp.srem 2 ≠ 0 then times inst state.result state.factor
    else state.result
  factor := times inst state.factor state.factor
  exp := state.exp.sdiv 2

/-- `Left ** Right`, with a pass of the loop for each unit of fuel. -/
def power (fuel : ℕ) (left : Complex inst.format) (right : Integer) :
    Option (Complex inst.format) :=
  (whileLoop (fun state => state.exp ≠ 0) (powerPass inst) fuel
    (powerStart left right)).map fun state =>
      if 0 ≤ right.toInt then state.result else realOver one state.result

end Operators

section Comparisons

variable {format : Format}

theorem isLe_iff (x y : Value format) :
    isLe x y = true ↔ ¬ Holds (· > ·) (datum x) (datum y) := by
  rw [← lowBits_gt_zero_iff, isLe, decide_eq_true_iff, compared]
  exact not_lt.symm

theorem isZero_finite {value : ℚ} (representable : format.Representable value) :
    isZero (.finite value representable) = true ↔ value = 0 := by
  rw [isZero, decide_eq_true_iff]
  apply (lowBits_eq_zero_iff _ _).trans
  rw [WithBot.coe_inj, WithTop.coe_inj]

theorem isZero_infinite (negative : Bool) :
    isZero (.infinite negative : Value format) = false := by
  rw [← Bool.not_eq_true, isZero, decide_eq_true_iff]
  apply (lowBits_eq_zero_iff _ _).not.mpr
  cases negative
  · exact WithBot.coe_injective.ne (WithTop.top_ne_coe)
  · exact WithBot.bot_ne_coe

variable {inst : Instance}

theorem isLe_abs_last_iff {value : ℚ}
    (representable : inst.format.Representable value) :
    isLe (Value.finite value representable).abs (last inst) = true ↔
      |value| ≤ inst.format.greatest := by
  rw [isLe_iff, ← not_lt]
  apply not_congr
  exact WithBot.coe_lt_coe.trans WithTop.coe_lt_coe

end Comparisons

section Float

/-- The instance `Ada.Numerics.Complex_Types`. -/
def complexTypes : Instance where
  format := floatFormat
  wide := by decide
  scale := floatFormat.round (2 ^ ((floatFormat.maxExponent - 1) / 2))

/-- `Left ** Right` for an imaginary number of this instance. -/
def imaginaryPower (fuel : ℕ) (left : Value floatFormat) (right : Integer) :
    Option (Complex floatFormat) :=
  (exnFloat machineTypes fuel left right).map fun run =>
    let m := run.value
    if right.smod 4 = 0 then ⟨m, zero⟩
    else if right.smod 4 = 1 then ⟨zero, m⟩
    else if right.smod 4 = 2 then ⟨m.neg, zero⟩
    else ⟨zero, m.neg⟩

end Float

end ComplexTypes

end AdacHybridMsp430
