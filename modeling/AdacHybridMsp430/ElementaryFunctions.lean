import AdacHybridMsp430.BinaryFloatSums
import AdacHybridMsp430.DecimalNumerals
import AdacHybridMsp430.FloatAttributes

/-!
# Elementary functions

The functions of `Ada.Numerics.Generic_Elementary_Functions` that reduce their
arguments before they call the mathematical library of C: the trigonometric
functions of an arbitrary cycle, and `Arctanh`.
-/

namespace AdacHybridMsp430

namespace ElementaryFunctions

open BinaryFloats DecimalNumerals FloatAttributes

/-- `Argument_Error` and `Constraint_Error`. -/
inductive Exception
  | argumentError
  | constraintError
  deriving DecidableEq

/-- An instance, with its constant `Sqrt_Epsilon` and the functions that it calls
from the mathematical library, between finite numbers. -/
structure Instance where
  package : Package
  sqrtEpsilon : ℚ
  sqrtEpsilon_pos : 0 < sqrtEpsilon
  auxSin : ℚ → ℚ
  auxCos : ℚ → ℚ
  auxLog : ℚ → ℚ

/-- `Ada.Numerics.Pi`. -/
def pi : ℚ :=
  3.14159265358979323846264338327950288419716939937511

def logTwo : ℚ :=
  0.6931471805599453094172321214581765680755

variable (inst : Instance)

abbrev Instance.format : Format :=
  inst.package.format

/-- What a function returns or raises. -/
abbrev Result :=
  Except Exception (Value inst.format)

def twoPi : ℚ :=
  machine inst.format (2 * pi)

/-- `Copy_Sign`. -/
def copySign (value sign : ℚ) : ℚ :=
  if sign < 0 then -|value| else |value|

section NaturalCycle

def sin (x : ℚ) : Value inst.format :=
  if |x| < inst.sqrtEpsilon then inst.format.round x
  else inst.format.round (inst.auxSin x)

def cos (x : ℚ) : Value inst.format :=
  if |x| < inst.sqrtEpsilon then inst.format.round 1
  else inst.format.round (inst.auxCos x)

end NaturalCycle

section ArbitraryCycle

/-- `T := Remainder (X, Cycle)`, and what the rest of the function does with it. -/
def remainderThen (fuel : ℕ) (x cycle : ℚ) (rest : ℚ → Result inst) :
    Option (Result inst) :=
  (remainder inst.format fuel x cycle).map fun returned =>
    match returned with
    | .ok t => rest t
    | .error _ => .error .constraintError

/-- `T / Cycle * Two_Pi`. -/
def radians (cycle t : ℚ) : ℚ :=
  machine inst.format (machine inst.format (t / cycle) * twoPi inst)

/-- The second reduction of `Sin`. -/
def reflect (cycle t : ℚ) : ℚ :=
  if machine inst.format (1 / 4 * cycle) < |t| then
    machine inst.format
      (machine inst.format (1 / 2 * copySign cycle t) - t)
  else
    t

def sinCycle (fuel : ℕ) (x cycle : ℚ) : Option (Result inst) :=
  if cycle ≤ 0 then
    some (.error .argumentError)
  else if x = 0 then
    some (.ok (inst.format.round x))
  else
    remainderThen inst fuel x cycle fun t =>
      let t := reflect inst cycle t
      .ok (inst.format.round (inst.auxSin (radians inst cycle t)))

def cosCycle (fuel : ℕ) (x cycle : ℚ) : Option (Result inst) :=
  let shifted :=
    machine inst.format (|x| - machine inst.format (cycle * (1 / 4)))
  (sinCycle inst fuel shifted cycle).map (·.map Value.neg)

def tanCycle (fuel : ℕ) (x cycle : ℚ) : Option (Result inst) :=
  if cycle ≤ 0 then
    some (.error .argumentError)
  else if x = 0 then
    some (.ok (inst.format.round x))
  else
    remainderThen inst fuel x cycle fun t =>
      if |t| = machine inst.format (1 / 4 * cycle) then
        .error .constraintError
      else if |t| = machine inst.format (1 / 2 * cycle) then
        .ok (inst.format.round 0)
      else
        let t := radians inst cycle t
        .ok ((sin inst t).div (cos inst t))

def cotCycle (fuel : ℕ) (x cycle : ℚ) : Option (Result inst) :=
  if cycle ≤ 0 then
    some (.error .argumentError)
  else
    remainderThen inst fuel x cycle fun t =>
      if t = 0 ∨ |t| = machine inst.format (1 / 2 * cycle) then
        .error .constraintError
      else if |t| < inst.sqrtEpsilon then
        .ok (inst.format.round (1 / t))
      else if |t| = machine inst.format (1 / 4 * cycle) then
        .ok (inst.format.round 0)
      else
        let t := radians inst cycle t
        .ok ((cos inst t).div (sin inst t))

end ArbitraryCycle

section Hyperbolic

/-- The natural logarithm. -/
def log (x : ℚ) : Result inst :=
  if x < 0 then .error .argumentError
  else if x = 0 then .error .constraintError
  else if x = 1 then .ok (inst.format.round 0)
  else .ok (inst.format.round (inst.auxLog x))

/-- The number `A` of `Arctanh`, with the products of both scalings. -/
def arctanhNear (fuel : ℕ) (x : ℚ) : Option Computed := do
  let mantissa := machineMantissa inst.format
  let up ← scaling fuel x (mantissa - 1)
  let rounded := machine inst.format (roundHalfAway up.value)
  let down ← scaling fuel rounded (1 - mantissa)
  return ⟨down.value, down.products ++ up.products⟩

/-- `Half_Log_Two * Float_Type'Base (Mantissa + 1)`. -/
def arctanhBound : ℚ :=
  machine inst.format (machine inst.format (logTwo / 2) *
    machine inst.format (machineMantissa inst.format + 1 : ℤ))

def arctanh (fuel : ℕ) (x : ℚ) : Option (Result inst) :=
  let mantissa := machineMantissa inst.format
  if |x| = 1 then
    some (.error .constraintError)
  else if machine inst.format (1 - machine inst.format (2 ^ (-mantissa))) ≤ |x| then
    if 1 ≤ |x| then
      some (.error .argumentError)
    else
      some (.ok (inst.format.round (copySign (arctanhBound inst) x)))
  else
    (arctanhNear inst fuel x).map fun near =>
      let a := near.value
      let b := machine inst.format (x - a)
      let aPlus1 := machine inst.format (1 + a)
      let aFrom1 := machine inst.format (1 - a)
      let d := inst.format.round (aPlus1 * aFrom1)
      return ((inst.format.round (1 / 2)).mul
        ((← log inst aPlus1).sub (← log inst aFrom1))).add
          ((inst.format.round b).div d)

end Hyperbolic

end ElementaryFunctions

end AdacHybridMsp430
