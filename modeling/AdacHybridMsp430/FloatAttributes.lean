import AdacHybridMsp430.BoundedLoops
import AdacHybridMsp430.Exponentiation
import Mathlib.Data.Fin.VecNotation

/-!
# Attributes of floating-point types

The functions of `System.Fat_Flt` and `System.Fat_LFlt` that take machine
numbers apart and put them together, over exact rationals.  Every product on
the way to a fraction or a scaled number is recorded.  `Machine`, which stores
its argument in memory, is the only function that rounds.
-/

namespace AdacHybridMsp430

namespace FloatAttributes

open BinaryFloats BoundedLoops

/-- The two packages, whose texts differ in the name of the type only. -/
inductive Package
  | fatFlt
  | fatLFlt

def Package.format : Package → Format
  | .fatFlt => Exponentiation.floatFormat
  | .fatLFlt => Exponentiation.longFloatFormat

section Constants

variable (format : Format)

def machineMantissa : ℤ := format.precision

def machineEmin : ℤ := format.minExponent + format.precision

def machineEmax : ℤ := format.maxExponent

def last : ℚ :=
  (2 ^ format.precision - 1) * 2 ^ (format.maxExponent - format.precision)

def first : ℚ := -last format

def safeLast : ℚ := last format

def safeFirst : ℚ := first format

def machine (x : ℚ) : ℚ := format.nearest x

def rad : ℚ := 2

def invrad : ℚ := 1 / rad

abbrev Expbits := Fin 7

def logPower : Expbits → ℤ := ![1, 2, 4, 8, 16, 32, 64]

def rPower (n : Expbits) : ℚ := rad ^ logPower n

def rNegPower (n : Expbits) : ℚ := invrad ^ logPower n

end Constants

/-- The variables `Ax` and `Ex` of `Decompose`, `Y` and `Ex` of `Scaling`, with
the products so far. -/
structure Scaled where
  value : ℚ
  exponent : ℤ
  products : List ℚ

/-- Multiply the value, and shift the exponent the other way. -/
def Scaled.times (state : Scaled) (power : ℚ) (shift : ℤ) : Scaled :=
  ⟨state.value * power, state.exponent + shift,
    state.value * power :: state.products⟩

/-- The values `Frac` and `Expo` of `Decompose`. -/
structure Decomposed where
  frac : ℚ
  expo : ℤ
  products : List ℚ

/-- The value of `Scaling` or `Compose`. -/
structure Computed where
  value : ℚ
  products : List ℚ

section Decompose

/-- The branch of `Decompose` for numbers from one on. -/
def reduce (fuel : ℕ) (state : Scaled) : Option Scaled := do
  let state ← descend (fun n state => rPower n ≤ state.value)
    (fun n state => state.times (rNegPower n) (logPower n)) fuel state
  return state.times invrad 1

/-- The branch of `Decompose` for numbers below one. -/
def enlarge (fuel : ℕ) (state : Scaled) : Option Scaled :=
  descend (fun n state => state.value < rNegPower n)
    (fun n state => state.times (rPower n) (-logPower n)) fuel state

def normalize (fuel : ℕ) (state : Scaled) : Option Scaled :=
  if 1 ≤ state.value then reduce fuel state else enlarge fuel state

variable (format : Format)

def decompose (fuel : ℕ) (xx : ℚ) : Option Decomposed :=
  let x := machine format xx
  if x = 0 then
    some ⟨x, 0, []⟩
  else if safeLast format < x then
    some ⟨invrad, machineEmax format + 1, []⟩
  else if x < safeFirst format then
    some ⟨-invrad, machineEmax format + 2, []⟩
  else do
    let state ← normalize fuel ⟨|x|, 0, []⟩
    return ⟨if 0 < x then state.value else -state.value, state.exponent,
      state.products⟩

def exponent (fuel : ℕ) (x : ℚ) : Option ℤ :=
  (decompose format fuel x).map (·.expo)

def fraction (fuel : ℕ) (x : ℚ) : Option ℚ :=
  (decompose format fuel x).map (·.frac)

end Decompose

section Scaling

/-- The branch of `Scaling` for negative adjustments. -/
def scaleDown (fuel : ℕ) (state : Scaled) : Option Scaled :=
  descend (fun n state => state.exponent ≤ -logPower n)
    (fun n state => state.times (rNegPower n) (logPower n)) fuel state

/-- The branch of `Scaling` for positive adjustments. -/
def scaleUp (fuel : ℕ) (state : Scaled) : Option Scaled :=
  descend (fun n state => logPower n ≤ state.exponent)
    (fun n state => state.times (rPower n) (-logPower n)) fuel state

def scale (fuel : ℕ) (state : Scaled) : Option Scaled :=
  if state.exponent < 0 then scaleDown fuel state else scaleUp fuel state

def scaling (fuel : ℕ) (x : ℚ) (adjustment : ℤ) : Option Computed :=
  if x = 0 ∨ adjustment = 0 then
    some ⟨x, []⟩
  else do
    let state ← scale fuel ⟨x, adjustment, []⟩
    return ⟨state.value, state.products⟩

variable (format : Format)

def compose (fuel : ℕ) (fraction : ℚ) (exponent : ℤ) : Option Computed := do
  let arg ← decompose format fuel fraction
  let scaled ← scaling fuel arg.frac exponent
  return ⟨scaled.value, scaled.products ++ arg.products⟩

end Scaling

section Neighbours

variable (format : Format)

/-- The variables of `Gradual_Scaling`. -/
structure Gradual where
  y : ℚ
  y1 : ℚ
  ex : ℤ

def gradualPass (state : Gradual) : ℚ ⊕ Gradual :=
  if state.ex < 0 then
    let y := machine format (state.y / 2)
    if y = 0 then .inl state.y1 else .inr ⟨y, y, state.ex + 1⟩
  else
    .inl state.y1

def gradualScaling (fuel : ℕ) (adjustment : ℤ) : Option ℚ :=
  if adjustment < machineEmin format - 1 then
    let y := 2 ^ machineEmin format
    loop (gradualPass format) fuel ⟨y, y, adjustment - machineEmin format⟩
  else
    (scaling fuel 1 adjustment).map (·.value)

/-- A pass of the loop of `Succ`. -/
def denormalPass (x1 : ℚ) : ℚ ⊕ ℚ :=
  let x2 := machine format (x1 / 2)
  if x2 = 0 then .inl x1 else .inr x2

/-- `Succ`, which returns a value or raises `Constraint_Error`. -/
def succ (fuel : ℕ) (x : ℚ) : Option (Except String ℚ) :=
  if x = 0 then
    (loop (denormalPass format) fuel (2 ^ machineEmin format)).map .ok
  else if x = last format then
    some (.error "Succ of largest positive number")
  else if x < first format ∨ last format < x then
    some (.ok x)
  else do
    let parts ← decompose format fuel x
    if parts.frac = -1 / 2 then
      let step ←
        gradualScaling format fuel (parts.expo - machineMantissa format - 1)
      return .ok (x + step)
    else
      let step ← gradualScaling format fuel (parts.expo - machineMantissa format)
      return .ok (x + step)

/-- `Pred`, which returns a value or raises `Constraint_Error`. -/
def pred (fuel : ℕ) (x : ℚ) : Option (Except String ℚ) :=
  if x = 0 then
    (succ format fuel x).map (·.map (-·))
  else if x = first format then
    some (.error "Pred of largest negative number")
  else if x < first format ∨ last format < x then
    some (.ok x)
  else do
    let parts ← decompose format fuel x
    if parts.frac = 1 / 2 then
      let step ←
        gradualScaling format fuel (parts.expo - machineMantissa format - 1)
      return .ok (x - step)
    else
      let step ← gradualScaling format fuel (parts.expo - machineMantissa format)
      return .ok (x - step)

end Neighbours

section Remainder

variable (format : Format)

/-- The variables of the subtraction loop of `Remainder`. -/
structure Division where
  p : ℚ
  ieeeRem : ℚ
  pEven : Bool

def Division.pass (state : Division) : Division :=
  if state.p ≤ state.ieeeRem then
    ⟨state.p * (1 / 2), state.ieeeRem - state.p, false⟩
  else
    ⟨state.p * (1 / 2), state.ieeeRem, true⟩

/-- The first part of `Remainder`, with the variables after the subtraction loop
and the exponent `P_Exp`. -/
def modulus (fuel : ℕ) (arg p : ℚ) : Option (Division × ℤ) :=
  if arg < p then do
    let pExp ← exponent format fuel p
    return (⟨p, arg, true⟩, pExp)
  else do
    let argParts ← decompose format fuel arg
    let pParts ← decompose format fuel p
    let composed ← compose format fuel pParts.frac argParts.expo
    let k := argParts.expo - pParts.expo
    let state := Fin.foldr (k + 1).toNat (fun _ state => state.pass)
      ⟨composed.value, arg, true⟩
    return (state, pParts.expo)

/-- The comparison of the remainder with half of the divisor. -/
def correct (state : Division) (pExp : ℤ) (y : ℚ) : ℚ :=
  let a := if 0 ≤ pExp then state.ieeeRem else state.ieeeRem * 2
  let b := if 0 ≤ pExp then |y| * (1 / 2) else |y|
  if b < a ∨ (a = b ∧ ¬state.pEven) then
    state.ieeeRem - |y|
  else
    state.ieeeRem

def signX (x : ℚ) : ℚ := if 0 < x then 1 else -1

def arg (x : ℚ) : ℚ := if 0 < x then x else -x

/-- `Remainder`, which returns a value or raises `Constraint_Error`, without a
message. -/
def remainder (fuel : ℕ) (x y : ℚ) : Option (Except String ℚ) :=
  if y = 0 then
    some (.error "")
  else do
    let (state, pExp) ← modulus format fuel (arg x) |y|
    return .ok (signX x * correct state pExp y)

end Remainder

end FloatAttributes

end AdacHybridMsp430
