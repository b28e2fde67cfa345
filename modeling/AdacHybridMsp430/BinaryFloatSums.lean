import AdacHybridMsp430.BinaryFloatSpacing
import Mathlib.Data.Rat.Cast.Order

/-!
# Sums and signs of machine values

The operations that change signs commute with the rounding, so that they can be
moved through all of the arithmetic.  A sum of machine numbers is exact if it is a
machine number.
-/

namespace BinaryFloats

variable {format : Format}

namespace Value

def neg : Value format → Value format
  | .finite value representable => .finite (-value) representable.neg
  | .infinite negative => .infinite !negative
  | .nan => .nan

def abs : Value format → Value format
  | .finite value representable => .finite |value| representable.abs
  | .infinite _ => .infinite false
  | .nan => .nan

def add : Value format → Value format → Value format
  | .finite first _, .finite second _ => format.round (first + second)
  | .infinite first, .infinite second =>
      if first = second then .infinite first else .nan
  | .infinite first, .finite _ _ => .infinite first
  | .finite _ _, .infinite second => .infinite second
  | _, _ => .nan

def sub (first second : Value format) : Value format :=
  first.add second.neg

end Value

section Signs

theorem roundHalfEven_neg (value : ℚ) :
    roundHalfEven (-value) = -roundHalfEven value := by
  by_cases integral : (⌊value⌋ : ℚ) = value
  · rw [← integral, ← Int.cast_neg, roundHalfEven_intCast, roundHalfEven_intCast]
  · have below : (⌊value⌋ : ℚ) < value := (Int.floor_le value).lt_of_ne integral
    have floor : ⌊-value⌋ = -⌊value⌋ - 1 := by
      have above := Int.lt_floor_add_one value
      rw [Int.floor_eq_iff]
      push_cast
      constructor <;> linarith
    have fraction : -value - ((-⌊value⌋ - 1 : ℤ) : ℚ) = 1 - (value - ⌊value⌋) := by
      push_cast
      ring
    have parity : (2 : ℤ) ∣ -⌊value⌋ - 1 ↔ ¬ (2 : ℤ) ∣ ⌊value⌋ := by
      omega
    unfold roundHalfEven
    dsimp only
    rw [floor, fraction]
    rcases lt_trichotomy (value - ⌊value⌋) (1 / 2) with small | half | large
    · rw [if_neg (by linarith), if_pos (by linarith), if_pos small]
      ring
    · have whole : ¬ value - ⌊value⌋ < 1 / 2 ∧ ¬ 1 / 2 < value - ⌊value⌋ := by
        constructor <;> linarith
      rw [if_neg (by linarith), if_neg (by linarith)]
      by_cases even : (2 : ℤ) ∣ ⌊value⌋
      · rw [if_neg (parity.not.mpr (not_not.mpr even)), if_neg whole.1,
          if_neg whole.2, if_pos even]
        ring
      · rw [if_pos (parity.mpr even), if_neg whole.1, if_neg whole.2, if_neg even]
        ring
    · rw [if_pos (by linarith), if_neg (by linarith), if_pos large]
      ring

theorem lastPlace_neg (value : ℚ) :
    format.lastPlace (-value) = format.lastPlace value := by
  rw [Format.lastPlace, Format.lastPlace, abs_neg]

theorem nearest_neg (value : ℚ) :
    format.nearest (-value) = -format.nearest value := by
  rw [Format.nearest, Format.nearest, lastPlace_neg, neg_div, roundHalfEven_neg]
  push_cast
  exact neg_mul _ _

theorem nearest_zero : format.nearest 0 = 0 := by
  rw [Format.nearest, zero_div, ← Int.cast_zero, roundHalfEven_intCast, Int.cast_zero,
    zero_mul]

theorem decide_neg_lt_zero {value : ℚ} (nonzero : value ≠ 0) :
    decide (-value < 0) = !decide (value < 0) := by
  rcases nonzero.lt_or_gt with negative | positive
  · simp [negative, negative.not_gt]
  · simp [positive, positive.not_gt]

theorem round_neg (value : ℚ) : format.round (-value) = (format.round value).neg := by
  unfold Format.round
  by_cases range : |format.nearest value| < 2 ^ format.maxExponent
  · have negRange : |format.nearest (-value)| < 2 ^ format.maxExponent := by
      rwa [nearest_neg, abs_neg]
    rw [dif_pos range, dif_pos negRange]
    simp only [Value.neg, nearest_neg]
  · have negRange : ¬ |format.nearest (-value)| < 2 ^ format.maxExponent := by
      rwa [nearest_neg, abs_neg]
    rw [dif_neg range, dif_neg negRange, Value.neg]
    have nonzero : value ≠ 0 := by
      rintro rfl
      rw [nearest_zero, abs_zero] at range
      exact range (by positivity)
    rw [decide_neg_lt_zero nonzero]

variable (first second : Value format)

@[simp]
theorem Value.neg_neg : first.neg.neg = first := by
  cases first with
  | finite value _ => simp [Value.neg]
  | infinite negative => simp [Value.neg]
  | nan => rfl

@[simp]
theorem Value.abs_neg : first.neg.abs = first.abs := by
  cases first with
  | finite value _ => simp [Value.neg, Value.abs]
  | infinite negative => rfl
  | nan => rfl

theorem Value.add_neg : first.neg.add second.neg = (first.add second).neg := by
  cases first <;> cases second <;> try rfl
  case finite.finite one _ two _ =>
    have sum : -one + -two = -(one + two) := by ring
    change format.round (-one + -two) = (format.round (one + two)).neg
    rw [sum, round_neg]
  case infinite.infinite one two =>
    cases one <;> cases two <;> rfl

theorem Value.add_comm : first.add second = second.add first := by
  cases first <;> cases second <;> try rfl
  case finite.finite one _ two _ =>
    have sum : one + two = two + one := by ring
    change format.round (one + two) = format.round (two + one)
    rw [sum]
  case infinite.infinite one two =>
    cases one <;> cases two <;> rfl

theorem Value.mul_comm : first.mul second = second.mul first := by
  cases first <;> cases second <;> try rfl
  case finite.finite one _ two _ =>
    have product : one * two = two * one := by ring
    change format.round (one * two) = format.round (two * one)
    rw [product]
  case finite.infinite one _ two => simp [Value.mul, Value.rational, Bool.xor_comm]
  case infinite.finite one two _ => simp [Value.mul, Value.rational, Bool.xor_comm]
  case infinite.infinite one two => simp [Value.mul, Value.rational, Bool.xor_comm]

theorem Value.neg_mul : first.neg.mul second = (first.mul second).neg := by
  cases first <;> cases second <;> try rfl
  case finite.finite one _ two _ =>
    have product : -one * two = -(one * two) := by ring
    change format.round (-one * two) = (format.round (one * two)).neg
    rw [product, round_neg]
  case finite.infinite one _ two =>
    by_cases zero : one = 0
    · simp [Value.neg, Value.mul, Value.rational, zero]
    · have sign := decide_neg_lt_zero zero
      simp only [Value.neg, Value.mul, Value.rational, Value.negative, sign,
        Option.some.injEq, neg_eq_zero, zero, reduceCtorEq, or_self, if_false,
        Bool.not_xor]
  case infinite.finite one two _ =>
    by_cases zero : two = 0
    · simp [Value.neg, Value.mul, Value.rational, zero]
    · simp [Value.neg, Value.mul, Value.rational, Value.negative, zero]
  case infinite.infinite one two =>
    simp [Value.neg, Value.mul, Value.rational, Value.negative]

theorem Value.mul_neg : first.mul second.neg = (first.mul second).neg := by
  rw [mul_comm, neg_mul, mul_comm]

theorem Value.neg_div : first.neg.div second = (first.div second).neg := by
  cases first <;> cases second <;> try rfl
  case finite.finite one _ two _ =>
    by_cases zero : two = 0
    · by_cases none : one = 0
      · simp [Value.neg, Value.div, zero, none]
      · simp only [Value.neg, Value.div, if_pos zero, if_neg none,
          if_neg (neg_ne_zero.mpr none), decide_neg_lt_zero none]
    · have quotient : -one / two = -(one / two) := by ring
      simp only [Value.neg, Value.div, if_neg zero]
      rw [quotient, round_neg]
      rfl
  case finite.infinite one _ two =>
    change format.round 0 = (format.round 0).neg
    rw [← round_neg, neg_zero]
  case infinite.finite one two _ =>
    simp [Value.neg, Value.div]

/-- A divisor that is not zero. -/
def Value.Nonzero : Value format → Prop
  | .finite value _ => value ≠ 0
  | _ => True

theorem Value.div_neg (nonzero : second.Nonzero) :
    first.div second.neg = (first.div second).neg := by
  cases first <;> cases second <;> try rfl
  case finite.finite one _ two _ =>
    have nonzero : two ≠ 0 := nonzero
    have quotient : one / -two = -(one / two) := by ring
    simp only [Value.neg, Value.div, if_neg nonzero, if_neg (neg_ne_zero.mpr nonzero)]
    rw [quotient, round_neg]
    rfl
  case finite.infinite one _ two =>
    change format.round 0 = (format.round 0).neg
    rw [← round_neg, neg_zero]
  case infinite.finite one two _ =>
    have nonzero : two ≠ 0 := nonzero
    simp only [Value.neg, Value.div, decide_neg_lt_zero nonzero, Bool.xor_not]

end Signs

section Threshold

theorem representable_one_sub (normal : format.minExponent + format.precision ≤ 0) :
    format.Representable (1 - 2 ^ (-format.precision : ℤ)) := by
  have power : (0 : ℚ) < 2 ^ (-format.precision : ℤ) := by positivity
  have small : (2 : ℚ) ^ (-format.precision : ℤ) ≤ 1 :=
    zpow_le_one_of_nonpos₀ (by norm_num) (by omega)
  have positive := format.maxExponent_pos
  have large : (1 : ℚ) < 2 ^ format.maxExponent :=
    one_lt_zpow₀ (by norm_num) positive
  refine ⟨2 ^ format.precision - 1, -format.precision, ?_, ?_, by omega, ?_⟩
  · push_cast
    rw [sub_mul, ← zpow_natCast, ← zpow_add₀ (by norm_num)]
    simp
  · have one : (0 : ℤ) < 2 ^ format.precision := by positivity
    rw [abs_of_nonneg (by omega)]
    omega
  · rw [abs_of_nonneg (by linarith)]
    linarith

/-- The greatest machine number below one. -/
theorem Format.Representable.le_one_sub {x : ℚ}
    (normal : format.minExponent + format.precision ≤ 0)
    (xMachine : format.Representable x) (less : |x| < 1) :
    |x| ≤ 1 - 2 ^ (-format.precision : ℤ) := by
  have precision := format.precision_pos
  rcases lt_or_ge |x| (2 ^ (-1 : ℤ)) with small | large
  · have power : (2 : ℚ) ^ (-format.precision : ℤ) ≤ 2 ^ (-1 : ℤ) :=
      zpow_le_zpow_right₀ (by norm_num) (by omega)
    norm_num at small power ⊢
    linarith
  · have place : format.spacing (-1) = -format.precision := by
      rw [Format.spacing]
      omega
    have multiple := xMachine.abs.exists_multiple_spacing
      (show 2 ^ (-1 : ℤ) ≤ |(|x|)| by rwa [abs_abs])
    rw [place] at multiple
    have one : ∃ multiple : ℤ,
        (1 : ℚ) = multiple * 2 ^ (-format.precision : ℤ) := by
      have whole := exists_multiple_of_le 1
        (show -(format.precision : ℤ) ≤ 0 by omega)
      simpa using whole
    have next := add_le_of_multiples multiple one less
    linarith

end Threshold

section Exactness

theorem representable_greatest
    (wide : (format.precision : ℤ) ≤ format.maxExponent) :
    format.Representable format.greatest := by
  have below : |format.greatest| < 2 ^ format.maxExponent := by
    have one : (1 : ℚ) ≤ 2 ^ format.precision := one_le_pow₀ (by norm_num)
    have place : (0 : ℚ) < 2 ^ (format.maxExponent - format.precision) := by
      positivity
    have nonneg : 0 ≤ format.greatest :=
      mul_nonneg (sub_nonneg.mpr one) place.le
    rw [abs_of_nonneg nonneg, ← greatest_add]
    linarith
  have minimum := format.minExponent_nonpos
  refine ⟨2 ^ format.precision - 1, format.maxExponent - format.precision, ?_, ?_,
    by omega, below⟩
  · rw [Format.greatest]
    push_cast
    rfl
  · have positive : (0 : ℤ) < 2 ^ format.precision := by positivity
    rw [abs_of_nonneg (by omega)]
    omega

/-- A combination of machine numbers that is not larger than any of them needs no
more digits than the one of them with the lower last place. -/
theorem Format.Representable.combine {x y value : ℚ}
    (xMachine : format.Representable x) (yMachine : format.Representable y)
    (combination : ∃ a b : ℤ, value = a * x + b * y)
    (leX : |value| ≤ |x|) (leY : |value| ≤ |y|) : format.Representable value := by
  obtain ⟨xSignificand, xExponent, xIs, xSize, xLe, xRange⟩ := xMachine
  obtain ⟨ySignificand, yExponent, yIs, ySize, yLe, _⟩ := yMachine
  obtain ⟨a, b, valueIs⟩ := combination
  have bounded : ∀ {significand exponent : ℤ},
      |significand| < 2 ^ format.precision →
      |value| ≤ |(significand : ℚ) * 2 ^ exponent| →
      |value| ≤ 2 ^ (format.precision + exponent) := by
    intro significand exponent size le
    have power : (0 : ℚ) < 2 ^ exponent := by positivity
    have sizeLe : (|significand| : ℚ) ≤ 2 ^ format.precision := by
      exact_mod_cast size.le
    calc |value| ≤ |(significand : ℚ) * 2 ^ exponent| := le
      _ = |(significand : ℚ)| * 2 ^ exponent := by rw [abs_mul, abs_of_pos power]
      _ ≤ 2 ^ format.precision * 2 ^ exponent :=
          mul_le_mul_of_nonneg_right sizeLe power.le
      _ = 2 ^ (format.precision + exponent) := by
          rw [zpow_add₀ (by norm_num), zpow_natCast]
  obtain ⟨xMultiple, xPlace⟩ :=
    exists_multiple_of_le xSignificand (min_le_left xExponent yExponent)
  obtain ⟨yMultiple, yPlace⟩ :=
    exists_multiple_of_le ySignificand (min_le_right xExponent yExponent)
  have multiple : value =
      ((a * xMultiple + b * yMultiple : ℤ) : ℚ) * 2 ^ min xExponent yExponent := by
    rw [valueIs, xIs, yIs, xPlace, yPlace]
    push_cast
    ring
  apply representable_of_multiple ⟨_, multiple⟩ (le_min xLe yLe)
  · rcases min_choice xExponent yExponent with isX | isY
    · rw [isX]
      exact bounded xSize (xIs ▸ leX)
    · rw [isY]
      exact bounded ySize (yIs ▸ leY)
  · exact leX.trans_lt xRange

/-- A difference of machine numbers is exact if none is more than twice as large as
the other. -/
theorem Format.Representable.sub {x y : ℚ} (xMachine : format.Representable x)
    (yMachine : format.Representable y) (lower : y / 2 ≤ x) (upper : x ≤ 2 * y) :
    format.Representable (x - y) := by
  have yNonneg : 0 ≤ y := by linarith
  have xNonneg : 0 ≤ x := by linarith
  apply xMachine.combine yMachine ⟨1, -1, by push_cast; ring⟩
  · rw [abs_of_nonneg xNonneg, abs_le]
    constructor <;> linarith
  · rw [abs_of_nonneg yNonneg, abs_le]
    constructor <;> linarith

variable {first second : Value format} {one two : ℚ}

theorem Value.rational_neg (firstIs : first.rational = some one) :
    first.neg.rational = some (-one) := by
  cases first with
  | finite value _ =>
      obtain rfl : value = one := Option.some.inj firstIs
      rfl
  | infinite negative => cases firstIs
  | nan => cases firstIs

/-- A sum is exact if it is a machine number. -/
theorem Value.rational_add (firstIs : first.rational = some one)
    (secondIs : second.rational = some two)
    (representable : format.Representable (one + two)) :
    (first.add second).rational = some (one + two) := by
  cases first with
  | finite one' _ =>
      cases second with
      | finite two' _ =>
          obtain rfl : one' = one := Option.some.inj firstIs
          obtain rfl : two' = two := Option.some.inj secondIs
          rw [Value.add, round_of_representable representable]
          rfl
      | infinite negative => cases secondIs
      | nan => cases secondIs
  | infinite negative => cases firstIs
  | nan => cases firstIs

/-- A quotient of exact values is rounded once. -/
theorem Value.div_eq_round (firstIs : first.rational = some one)
    (secondIs : second.rational = some two) (nonzero : two ≠ 0) :
    first.div second = format.round (one / two) := by
  cases first with
  | finite one' _ =>
      cases second with
      | finite two' _ =>
          obtain rfl : one' = one := Option.some.inj firstIs
          obtain rfl : two' = two := Option.some.inj secondIs
          exact if_neg nonzero
      | infinite negative => cases secondIs
      | nan => cases secondIs
  | infinite negative => cases firstIs
  | nan => cases firstIs

end Exactness

end BinaryFloats
