import Mathlib.Algebra.Order.Field.Power
import Mathlib.Algebra.Order.Floor.Ring
import Mathlib.Algebra.Ring.Int.Parity
import Mathlib.Data.Int.Log
import Mathlib.Data.Nat.Prime.Int
import Mathlib.Data.Rat.Floor
import Mathlib.RingTheory.Multiplicity
import Mathlib.Tactic.FieldSimp
import Mathlib.Tactic.LinearCombination
import Mathlib.Tactic.Ring

/-!
# Binary floating-point formats

The machine numbers of a format are the rationals with a significand of bounded
size and an exponent of bounded range, with gradual underflow.  Arithmetic
rounds the exact result to the nearest machine number, ties to even, and
overflows to an infinity.  Zeros carry no sign.
-/

namespace BinaryFloats

/-- A format: the bits of the significand, the exponent of the least positive
machine number, and the exponent of the overflow threshold. -/
structure Format where
  precision : ℕ
  minExponent : ℤ
  maxExponent : ℤ
  precision_pos : 0 < precision
  minExponent_nonpos : minExponent ≤ 0
  maxExponent_pos : 0 < maxExponent

variable (format : Format)

/-- The finite machine numbers. -/
def Format.Representable (value : ℚ) : Prop :=
  ∃ significand exponent : ℤ,
    value = significand * 2 ^ exponent ∧
      |significand| < 2 ^ format.precision ∧
      format.minExponent ≤ exponent ∧
      |value| < 2 ^ format.maxExponent

/-- A machine value. -/
inductive Value
  | finite (value : ℚ) (representable : format.Representable value)
  | infinite (negative : Bool)
  | nan

/-- The nearest integer, the even one of two. -/
def roundHalfEven (value : ℚ) : ℤ :=
  let fraction := value - ⌊value⌋
  if fraction < 1 / 2 then ⌊value⌋
  else if 1 / 2 < fraction then ⌊value⌋ + 1
  else if 2 ∣ ⌊value⌋ then ⌊value⌋
  else ⌊value⌋ + 1

/-- The exponent of the last place of a rounded value. -/
def Format.lastPlace (value : ℚ) : ℤ :=
  max (Int.log 2 |value| + 1 - format.precision) format.minExponent

/-- The nearest value with the precision of the format, in any range. -/
def Format.nearest (value : ℚ) : ℚ :=
  roundHalfEven (value / 2 ^ format.lastPlace value) *
    2 ^ format.lastPlace value

section Rounding

theorem roundHalfEven_cases (value : ℚ) :
    roundHalfEven value = ⌊value⌋ ∨
      (roundHalfEven value = ⌊value⌋ + 1 ∧ (⌊value⌋ : ℚ) < value) := by
  unfold roundHalfEven
  dsimp only
  split
  · exact Or.inl rfl
  · rename_i large
    have above : (⌊value⌋ : ℚ) < value := by
      linarith
    split
    · exact Or.inr ⟨rfl, above⟩
    · split
      · exact Or.inl rfl
      · exact Or.inr ⟨rfl, above⟩

@[simp]
theorem roundHalfEven_intCast (value : ℤ) : roundHalfEven (value : ℚ) = value := by
  rcases roundHalfEven_cases (value : ℚ) with same | ⟨_, above⟩
  · rw [same, Int.floor_intCast]
  · rw [Int.floor_intCast] at above
    exact absurd above (lt_irrefl _)

/-- Rounding does not leave an interval with integer ends. -/
theorem abs_roundHalfEven_le {value : ℚ} {bound : ℤ} (le : |value| ≤ bound) :
    |roundHalfEven value| ≤ bound := by
  obtain ⟨lower, upper⟩ := abs_le.mp le
  have floorLower : -bound ≤ ⌊value⌋ := by
    apply Int.le_floor.mpr
    push_cast
    exact lower
  have floorUpper : ⌊value⌋ ≤ bound := by
    have cast : ((⌊value⌋ : ℤ) : ℚ) ≤ bound := (Int.floor_le value).trans upper
    exact_mod_cast cast
  rw [abs_le]
  rcases roundHalfEven_cases value with same | ⟨next, above⟩
  · rw [same]
    exact ⟨floorLower, floorUpper⟩
  · have below : ((⌊value⌋ : ℤ) : ℚ) < bound := above.trans_le upper
    have below : ⌊value⌋ < bound := by
      exact_mod_cast below
    rw [next]
    exact ⟨by omega, by omega⟩

theorem abs_lt_of_lastPlace (value : ℚ) :
    |value| / 2 ^ format.lastPlace value ≤ (2 ^ format.precision : ℤ) := by
  have positive : (0 : ℚ) < 2 ^ format.lastPlace value := by positivity
  rw [div_le_iff₀ positive]
  have power := Int.lt_zpow_succ_log_self (b := 2) (by decide) |value|
  have exponent : Int.log 2 |value| + 1 ≤
      format.precision + format.lastPlace value := by
    have le := le_max_left (Int.log 2 |value| + 1 - format.precision)
      format.minExponent
    rw [Format.lastPlace]
    omega
  calc |value| ≤ 2 ^ (Int.log 2 |value| + 1) := power.le
    _ ≤ (2 : ℚ) ^ (format.precision + format.lastPlace value) :=
        zpow_le_zpow_right₀ (by norm_num) exponent
    _ = (2 ^ format.precision : ℤ) * 2 ^ format.lastPlace value := by
        rw [zpow_add₀ (by norm_num)]
        norm_cast

/-- A significand of full size is a power of two and can be shortened. -/
theorem representable_of_abs_le {significand exponent : ℤ}
    (size : |significand| ≤ 2 ^ format.precision)
    (exponentLe : format.minExponent ≤ exponent)
    (range : |(significand : ℚ) * 2 ^ exponent| < 2 ^ format.maxExponent) :
    format.Representable (significand * 2 ^ exponent) := by
  rcases size.lt_or_eq with small | full
  · exact ⟨significand, exponent, rfl, small, exponentLe, range⟩
  · obtain ⟨half, halved⟩ : ∃ half, significand = half * 2 := by
      have even : (2 : ℤ) ∣ |significand| := by
        rw [full]
        exact dvd_pow_self 2 format.precision_pos.ne'
      obtain ⟨half, eq⟩ := (dvd_abs 2 significand).mp even
      exact ⟨half, by rw [eq, mul_comm]⟩
    refine ⟨half, exponent + 1, ?_, ?_, by omega, range⟩
    · rw [halved, zpow_add₀ (by norm_num)]
      push_cast
      ring
    · have double : |half| * 2 = 2 ^ format.precision := by
        rw [← full, halved, abs_mul]
        rfl
      have positive : (0 : ℤ) < 2 ^ format.precision := by positivity
      omega

theorem representable_nearest {value : ℚ}
    (range : |format.nearest value| < 2 ^ format.maxExponent) :
    format.Representable (format.nearest value) := by
  apply representable_of_abs_le format _ (le_max_right _ _) range
  apply abs_roundHalfEven_le
  rw [abs_div, abs_of_pos (show (0 : ℚ) < 2 ^ format.lastPlace value by positivity)]
  exact abs_lt_of_lastPlace format value

end Rounding

/-- Round to the nearest machine number, or overflow. -/
def Format.round (value : ℚ) : Value format :=
  if range : |format.nearest value| < 2 ^ format.maxExponent then
    .finite (format.nearest value) (representable_nearest format range)
  else
    .infinite (value < 0)

section Arithmetic

variable {format}

/-- The exact value of a finite machine value. -/
def Value.rational : Value format → Option ℚ
  | .finite value _ => some value
  | .infinite _ => none
  | .nan => none

/-- Whether a machine value is below zero. -/
def Value.negative : Value format → Bool
  | .finite value _ => value < 0
  | .infinite negative => negative
  | .nan => false

def Value.mul : Value format → Value format → Value format
  | .finite first _, .finite second _ => format.round (first * second)
  | .nan, _ => .nan
  | _, .nan => .nan
  | first, second =>
      if first.rational = some 0 ∨ second.rational = some 0 then .nan
      else .infinite (first.negative ^^ second.negative)

def Value.div : Value format → Value format → Value format
  | .finite first _, .finite second _ =>
      if second = 0 then
        if first = 0 then .nan else .infinite (first < 0)
      else
        format.round (first / second)
  | .infinite negative, .finite second _ => .infinite (negative ^^ (second < 0))
  | .finite _ _, .infinite _ => format.round 0
  | _, _ => .nan

/-- Conversion to another format. -/
def Value.convert (target : Format) : Value format → Value target
  | .finite value _ => target.round value
  | .infinite negative => .infinite negative
  | .nan => .nan

theorem Value.representable_of_rational {value : Value format} {exact : ℚ}
    (rational : value.rational = some exact) : format.Representable exact := by
  cases value with
  | finite value representable => exact Option.some.inj rational ▸ representable
  | infinite negative => simp [Value.rational] at rational
  | nan => simp [Value.rational] at rational

end Arithmetic

section Exactness

variable {format}

/-- The last place of a machine number is not above its exponent. -/
theorem lastPlace_le {significand exponent : ℤ}
    (size : |significand| < 2 ^ format.precision)
    (exponentLe : format.minExponent ≤ exponent) (nonzero : significand ≠ 0) :
    format.lastPlace (significand * 2 ^ exponent) ≤ exponent := by
  apply max_le _ exponentLe
  have positive : (0 : ℚ) < |(significand : ℚ) * 2 ^ exponent| := by
    rw [abs_pos]
    positivity
  have bound : |(significand : ℚ) * 2 ^ exponent| <
      ((2 : ℕ) : ℚ) ^ (format.precision + exponent) := by
    have power : (0 : ℚ) < 2 ^ exponent := by positivity
    rw [abs_mul, abs_of_pos power, Nat.cast_ofNat, zpow_add₀ (by norm_num)]
    apply mul_lt_mul_of_pos_right _ power
    exact_mod_cast size
  have log := (Int.lt_zpow_iff_log_lt (by decide) positive).mp bound
  omega

/-- A machine number is its own rounding. -/
theorem nearest_of_representable {value : ℚ}
    (representable : format.Representable value) :
    format.nearest value = value := by
  obtain ⟨significand, exponent, rfl, size, exponentLe, _⟩ := representable
  rcases eq_or_ne significand 0 with rfl | nonzero
  · simp [Format.nearest, show roundHalfEven 0 = 0 from roundHalfEven_intCast 0]
  have le := lastPlace_le size exponentLe nonzero
  generalize place : format.lastPlace (significand * 2 ^ exponent) = last at le
  rw [Format.nearest, place]
  obtain ⟨shift, rfl⟩ : ∃ shift : ℕ, exponent = last + shift :=
    ⟨(exponent - last).toNat, by omega⟩
  have power : (2 : ℚ) ^ last ≠ 0 := by positivity
  have quotient : (significand : ℚ) * 2 ^ (last + (shift : ℤ)) / 2 ^ last =
      ((significand * 2 ^ shift : ℤ) : ℚ) := by
    rw [zpow_add₀ (by norm_num), zpow_natCast]
    push_cast
    field_simp
  rw [quotient, roundHalfEven_intCast, ← quotient]
  field_simp

theorem round_of_representable {value : ℚ}
    (representable : format.Representable value) :
    format.round value = .finite value representable := by
  have nearest := nearest_of_representable representable
  obtain ⟨_, _, _, _, _, range⟩ := representable
  rw [← nearest] at range
  rw [Format.round, dif_pos range]
  congr

/-- A product is exact if it is a machine number. -/
theorem Value.rational_mul {first second : Value format} {one two : ℚ}
    (firstIs : first.rational = some one) (secondIs : second.rational = some two)
    (representable : format.Representable (one * two)) :
    (first.mul second).rational = some (one * two) := by
  cases first with
  | finite one' _ =>
      cases second with
      | finite two' _ =>
          obtain rfl : one' = one := Option.some.inj firstIs
          obtain rfl : two' = two := Option.some.inj secondIs
          rw [Value.mul, round_of_representable representable]
          rfl
      | infinite negative => cases secondIs
      | nan => cases secondIs
  | infinite negative => cases firstIs
  | nan => cases firstIs

/-- A conversion is exact if the target has the number. -/
theorem Value.rational_convert {value : Value format} {exact : ℚ}
    {target : Format} (valueIs : value.rational = some exact)
    (representable : target.Representable exact) :
    (value.convert target).rational = some exact := by
  cases value with
  | finite value _ =>
      obtain rfl : value = exact := Option.some.inj valueIs
      rw [Value.convert, round_of_representable representable]
      rfl
  | infinite negative => cases valueIs
  | nan => cases valueIs

/-- The machine numbers of a smaller format. -/
theorem Format.Representable.mono {target : Format} {value : ℚ}
    (representable : format.Representable value)
    (precision : format.precision ≤ target.precision)
    (minExponent : target.minExponent ≤ format.minExponent)
    (maxExponent : format.maxExponent ≤ target.maxExponent) :
    target.Representable value := by
  obtain ⟨significand, exponent, eq, size, exponentLe, range⟩ := representable
  refine ⟨significand, exponent, eq, ?_, minExponent.trans exponentLe, ?_⟩
  · exact size.trans_le (pow_le_pow_right₀ (by norm_num) precision)
  · exact range.trans_le (zpow_le_zpow_right₀ (by norm_num) maxExponent)

/-- A conversion to a larger format makes no new finite value. -/
theorem Value.rational_of_convert {value : Value format} {exact : ℚ}
    {target : Format} (precision : format.precision ≤ target.precision)
    (minExponent : target.minExponent ≤ format.minExponent)
    (maxExponent : format.maxExponent ≤ target.maxExponent)
    (converted : (value.convert target).rational = some exact) :
    value.rational = some exact := by
  cases value with
  | finite value representable =>
      rw [Value.convert, round_of_representable
        (representable.mono precision minExponent maxExponent)] at converted
      exact converted
  | infinite negative => cases converted
  | nan => cases converted

end Exactness

section Powers

variable {format}

theorem representable_one : format.Representable 1 := by
  have precision : (1 : ℤ) < 2 ^ format.precision :=
    one_lt_pow₀ (by norm_num) format.precision_pos.ne'
  have range : (1 : ℚ) < 2 ^ format.maxExponent :=
    one_lt_zpow₀ (by norm_num) format.maxExponent_pos
  exact ⟨1, 0, by simp, by simpa using precision, format.minExponent_nonpos,
    by simpa using range⟩

theorem representable_intCast {value : ℤ}
    (size : |value| < 2 ^ format.precision)
    (range : |(value : ℚ)| < 2 ^ format.maxExponent) :
    format.Representable value :=
  ⟨value, 0, by simp, size, format.minExponent_nonpos, range⟩

/-- A dyadic rational is zero or an odd multiple of a power of two. -/
theorem exists_odd_of_representable {value : ℚ}
    (representable : format.Representable value) (nonzero : value ≠ 0) :
    ∃ odd exponent : ℤ, value = odd * 2 ^ exponent ∧ ¬ 2 ∣ odd := by
  obtain ⟨significand, exponent, rfl, _⟩ := representable
  have significandNe : significand ≠ 0 := by
    rintro rfl
    simp at nonzero
  have finite : FiniteMultiplicity 2 significand :=
    Int.finiteMultiplicity_iff.mpr ⟨by decide, significandNe⟩
  obtain ⟨odd, eq, notDvd⟩ := finite.exists_eq_pow_mul_and_not_dvd
  refine ⟨odd, multiplicity 2 significand + exponent, ?_, notDvd⟩
  rw [zpow_add₀ (by norm_num), zpow_natCast]
  nth_rewrite 1 [eq]
  push_cast
  ring

/-- An odd significand is the shortest one. -/
theorem representable_odd_iff {odd exponent : ℤ} (notDvd : ¬ 2 ∣ odd) :
    format.Representable (odd * 2 ^ exponent) ↔
      |odd| < 2 ^ format.precision ∧ format.minExponent ≤ exponent ∧
        |(odd : ℚ) * 2 ^ exponent| < 2 ^ format.maxExponent := by
  constructor
  · rintro ⟨significand, exponent', eq, size, exponentLe, range⟩
    have le : exponent' ≤ exponent := by
      by_contra above
      obtain ⟨shift, rfl⟩ : ∃ shift : ℕ, exponent' = exponent + (shift + 1) :=
        ⟨(exponent' - exponent - 1).toNat, by omega⟩
      apply notDvd
      have power : (2 : ℚ) ^ exponent ≠ 0 := by positivity
      have cast : (odd : ℚ) = significand * 2 ^ (shift + 1) := by
        rw [zpow_add₀ (by norm_num), ← mul_assoc,
          mul_right_comm] at eq
        have cancelled := mul_right_cancel₀ power eq
        exact_mod_cast cancelled
      have integers : odd = significand * 2 ^ (shift + 1) := by
        exact_mod_cast cast
      rw [integers, pow_succ]
      exact ⟨significand * 2 ^ shift, by ring⟩
    obtain ⟨shift, rfl⟩ : ∃ shift : ℕ, exponent = exponent' + shift :=
      ⟨(exponent - exponent').toNat, by omega⟩
    refine ⟨?_, by omega, range⟩
    have power : (2 : ℚ) ^ exponent' ≠ 0 := by positivity
    have cast : (odd : ℚ) * 2 ^ shift = significand := by
      rw [zpow_add₀ (by norm_num), ← mul_assoc, mul_right_comm] at eq
      have cancelled := mul_right_cancel₀ power eq
      exact_mod_cast cancelled
    have integers : odd * 2 ^ shift = significand := by
      exact_mod_cast cast
    calc |odd| ≤ |odd| * 2 ^ shift :=
          le_mul_of_one_le_right (abs_nonneg _) (one_le_pow₀ (by norm_num))
      _ = |significand| := by
          rw [← integers, abs_mul, abs_pow, abs_two]
      _ < 2 ^ format.precision := size
  · rintro ⟨size, exponentLe, range⟩
    exact ⟨odd, exponent, rfl, size, exponentLe, range⟩

/-- The lower powers of a number are not above the overflow threshold. -/
theorem abs_pow_lt_of_le {base : ℚ} {n i : ℕ}
    (representable : format.Representable (base ^ n)) (le : i ≤ n) :
    |base ^ i| < 2 ^ format.maxExponent := by
  obtain ⟨_, _, _, _, _, range⟩ := representable
  rw [abs_pow] at range ⊢
  rcases le_total |base| 1 with small | large
  · calc |base| ^ i ≤ 1 := pow_le_one₀ (abs_nonneg _) small
      _ < 2 ^ format.maxExponent :=
          one_lt_zpow₀ (by norm_num) format.maxExponent_pos
  · exact (pow_le_pow_right₀ large le).trans_lt range

/-- If a power of a dyadic rational is a machine number, so are the lower
powers. -/
theorem Format.Representable.pow_of_le {other : Format} {base : ℚ} {n i : ℕ}
    (dyadic : other.Representable base)
    (representable : format.Representable (base ^ n)) (le : i ≤ n) :
    format.Representable (base ^ i) := by
  rcases Nat.eq_zero_or_pos i with rfl | iPos
  · rw [pow_zero]
    exact representable_one
  rcases eq_or_ne base 0 with rfl | nonzero
  · rw [zero_pow iPos.ne']
    rwa [zero_pow (by omega)] at representable
  obtain ⟨odd, exponent, rfl, notDvd⟩ :=
    exists_odd_of_representable dyadic nonzero
  have power : ∀ m : ℕ, ((odd : ℚ) * 2 ^ exponent) ^ m =
      ((odd ^ m : ℤ) : ℚ) * 2 ^ (exponent * m) := by
    intro m
    rw [mul_pow, zpow_mul, zpow_natCast]
    push_cast
    rfl
  have oddPower : ∀ m : ℕ, ¬ 2 ∣ odd ^ m := fun m dvd =>
    notDvd (Int.prime_two.dvd_of_dvd_pow dvd)
  have range := abs_pow_lt_of_le representable le
  rw [power] at range representable ⊢
  rw [representable_odd_iff (oddPower _)] at representable ⊢
  obtain ⟨size, exponentLe, _⟩ := representable
  refine ⟨?_, ?_, range⟩
  · refine lt_of_le_of_lt ?_ size
    rw [abs_pow, abs_pow]
    apply pow_le_pow_right₀ _ le
    apply Int.one_le_abs
    rintro rfl
    exact notDvd (dvd_zero 2)
  · have minimum := format.minExponent_nonpos
    rcases le_total 0 exponent with nonneg | nonpos
    · exact minimum.trans (by positivity)
    · refine exponentLe.trans ?_
      apply mul_le_mul_of_nonpos_left _ nonpos
      exact_mod_cast le

end Powers

end BinaryFloats
