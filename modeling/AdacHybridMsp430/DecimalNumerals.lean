import Mathlib.Algebra.Order.Field.Power
import Mathlib.Algebra.Order.Floor.Ring
import Mathlib.Data.List.Induction
import Mathlib.Data.Int.Log
import Mathlib.Data.Rat.Floor
import Mathlib.Tactic.FieldSimp
import Mathlib.Tactic.IntervalCases
import Mathlib.Tactic.Ring

/-!
# Decimal numerals

Numerals with a point, with or without an exponent, and the rounding of a
rational to a decimal place, half away from zero.
-/

namespace DecimalNumerals

/-- All characters are digits. -/
def AreDigits (characters : List Char) : Prop :=
  ∀ character ∈ characters, character.isDigit

/-- The number that a list of digits denotes. -/
def digitsValue (digits : List Char) : ℕ :=
  Nat.ofDigitChars 10 digits 0

/-- A numeral without an exponent. -/
structure Fixed where
  negative : Bool
  whole : List Char
  fraction : List Char
  nonempty : whole ≠ []
  areDigits : AreDigits (whole ++ fraction)

/-- The factor of a sign. -/
def signFactor (negative : Bool) : ℚ :=
  if negative then -1 else 1

namespace Fixed

def sign (numeral : Fixed) : List Char :=
  if numeral.negative then ['-'] else []

def text (numeral : Fixed) : List Char :=
  numeral.sign ++ numeral.whole ++ '.' :: numeral.fraction

def value (numeral : Fixed) : ℚ :=
  signFactor numeral.negative *
    (digitsValue (numeral.whole ++ numeral.fraction) *
      10 ^ (-(numeral.fraction.length : ℤ)))

end Fixed

/-- A numeral with an exponent. -/
structure Scientific where
  mantissa : Fixed
  exponentNegative : Bool
  exponentDigits : List Char
  nonempty : exponentDigits ≠ []
  areDigits : AreDigits exponentDigits

namespace Scientific

def exponent (numeral : Scientific) : ℤ :=
  if numeral.exponentNegative then -digitsValue numeral.exponentDigits
  else digitsValue numeral.exponentDigits

def text (numeral : Scientific) : List Char :=
  numeral.mantissa.text ++
    'E' :: (if numeral.exponentNegative then '-' else '+') ::
      numeral.exponentDigits

def value (numeral : Scientific) : ℚ :=
  numeral.mantissa.value * 10 ^ numeral.exponent

end Scientific

/-- The nearest integer, the one farther from zero of two. -/
def roundHalfAway (value : ℚ) : ℤ :=
  if 0 ≤ value then ⌊value + 1 / 2⌋ else -⌊-value + 1 / 2⌋

/-- A rational rounded to the given number of digits after the point. -/
def roundTo (digits : ℤ) (value : ℚ) : ℚ :=
  roundHalfAway (value * 10 ^ digits) * 10 ^ (-digits)

/-- The place of the first digit of a rational. -/
def leadingPlace (value : ℚ) : ℤ :=
  Int.log 10 |value|

section Digits

variable {first second : List Char}

theorem areDigits_append :
    AreDigits (first ++ second) ↔ AreDigits first ∧ AreDigits second := by
  simp [AreDigits, or_imp, forall_and]

theorem areDigits_cons {character : Char} :
    AreDigits (character :: second) ↔
      character.isDigit ∧ AreDigits second := by
  simp [AreDigits]

theorem areDigits_zeros (count : ℕ) :
    AreDigits (List.replicate count '0') := by
  intro character member
  rw [List.eq_of_mem_replicate member]
  rfl

theorem areDigits_toDigits (n : ℕ) : AreDigits (Nat.toDigits 10 n) :=
  fun _ member => Nat.isDigit_of_mem_toDigits (by decide) (by decide) member

theorem areDigits_digitChar {d : ℕ} (digit : d < 10) :
    AreDigits [d.digitChar] := by
  intro character member
  rw [List.mem_singleton.mp member, Nat.isDigit_digitChar,
    decide_eq_true_iff]
  exact digit

theorem exists_digitChar {character : Char} (digit : character.isDigit) :
    ∃ d < 10, character = Nat.digitChar d := by
  rw [Char.isDigit, Bool.and_eq_true, decide_eq_true_iff,
    decide_eq_true_iff] at digit
  obtain ⟨lower, upper⟩ := digit
  refine ⟨character.toNat - 48, ?_, ?_⟩
  · have bound : character.toNat ≤ 57 := upper
    omega
  · have lowerBound : 48 ≤ character.toNat := lower
    have upperBound : character.toNat ≤ 57 := upper
    have code : character = Char.ofNat character.toNat :=
      (Char.ofNat_toNat character).symm
    rw [code]
    generalize character.toNat = n at lowerBound upperBound
    interval_cases n <;> rfl

@[simp]
theorem digitsValue_nil : digitsValue [] = 0 :=
  rfl

theorem digitsValue_append (first second : List Char) :
    digitsValue (first ++ second) =
      digitsValue first * 10 ^ second.length + digitsValue second := by
  rw [digitsValue, Nat.ofDigitChars_append,
    Nat.ofDigitChars_eq_ofDigitChars_zero, mul_comm]
  rfl

@[simp]
theorem digitsValue_zeros (count : ℕ) :
    digitsValue (List.replicate count '0') = 0 := by
  simp [digitsValue]

theorem digitsValue_digitChar {d : ℕ} (digit : d < 10) :
    digitsValue [d.digitChar] = d := by
  simp [digitsValue, Nat.ofDigitChars_cons_digitChar_of_lt_ten digit]

/-- Zeros at the end scale a number. -/
theorem digitsValue_append_zeros (digits : List Char) (count : ℕ) :
    digitsValue (digits ++ List.replicate count '0') =
      digitsValue digits * 10 ^ count := by
  rw [digitsValue_append, digitsValue_zeros, List.length_replicate, add_zero]

/-- Zeros in front do not change a number. -/
theorem digitsValue_zeros_append (count : ℕ) (digits : List Char) :
    digitsValue (List.replicate count '0' ++ digits) = digitsValue digits := by
  rw [digitsValue_append, digitsValue_zeros, zero_mul, zero_add]

theorem digitsValue_lt {digits : List Char} (areDigits : AreDigits digits) :
    digitsValue digits < 10 ^ digits.length := by
  induction digits using List.reverseRec with
  | nil => simp
  | append_singleton digits character ih =>
      obtain ⟨before, last⟩ := areDigits_append.mp areDigits
      obtain ⟨d, bound, rfl⟩ := exists_digitChar (last _ List.mem_cons_self)
      have lower := ih before
      rw [digitsValue_append, digitsValue_digitChar bound, List.length_append,
        List.length_singleton, pow_one, pow_succ]
      omega

end Digits

section Rounding

theorem roundHalfAway_of_nonneg {value : ℚ} (nonneg : 0 ≤ value) :
    roundHalfAway value = ⌊value + 1 / 2⌋ :=
  if_pos nonneg

theorem roundHalfAway_neg (value : ℚ) :
    roundHalfAway (-value) = -roundHalfAway value := by
  have half : ⌊(1 : ℚ) / 2⌋ = 0 := by
    rw [Int.floor_eq_iff]
    norm_num
  rw [roundHalfAway, roundHalfAway]
  rcases lt_trichotomy value 0 with negative | rfl | positive
  · rw [if_pos (by linarith), if_neg (by linarith), neg_neg]
  · simp only [neg_zero, le_refl, if_true, zero_add, half]
  · rw [if_neg (by linarith), if_pos positive.le, neg_neg]

theorem abs_sub_roundHalfAway_le (value : ℚ) :
    |value - roundHalfAway value| ≤ 1 / 2 := by
  unfold roundHalfAway
  split
  · have lower := Int.floor_le (value + 1 / 2)
    have upper := Int.lt_floor_add_one (value + 1 / 2)
    exact abs_le.mpr ⟨by linarith, by linarith⟩
  · have lower := Int.floor_le (-value + 1 / 2)
    have upper := Int.lt_floor_add_one (-value + 1 / 2)
    push_cast
    exact abs_le.mpr ⟨by linarith, by linarith⟩

theorem roundHalfAway_natCast (n : ℕ) : roundHalfAway n = n := by
  rw [roundHalfAway_of_nonneg n.cast_nonneg, Int.floor_eq_iff]
  push_cast
  constructor <;> linarith

theorem roundTo_zero (digits : ℤ) : roundTo digits 0 = 0 := by
  rw [roundTo, zero_mul, ← Nat.cast_zero, roundHalfAway_natCast]
  simp

theorem roundHalfAway_eq_zero {value : ℚ} (nonneg : 0 ≤ value)
    (small : value < 1 / 2) : roundHalfAway value = 0 := by
  rw [roundHalfAway_of_nonneg nonneg, Int.floor_eq_iff]
  push_cast
  constructor <;> linarith

/-- The first digit that is dropped decides. -/
theorem roundHalfAway_div (kept : ℕ) {digit rest unit : ℕ}
    (isDigit : digit < 10) (below : rest < unit) :
    roundHalfAway
        (((kept * (10 * unit) + (digit * unit + rest) : ℕ) : ℚ) /
          (10 * unit : ℕ)) =
      kept + if 5 ≤ digit then 1 else 0 := by
  have positive : (0 : ℚ) < (10 * unit : ℕ) := by
    exact_mod_cast (show 0 < 10 * unit by omega)
  have part : (((kept * (10 * unit) + (digit * unit + rest) : ℕ) : ℚ) /
      (10 * unit : ℕ)) =
        kept + ((digit * unit + rest : ℕ) : ℚ) / (10 * unit : ℕ) := by
    rw [Nat.cast_add, add_div, Nat.cast_mul, mul_div_assoc,
      div_self positive.ne', mul_one]
  have nonneg : (0 : ℚ) ≤ ((digit * unit + rest : ℕ) : ℚ) / (10 * unit : ℕ) :=
    by positivity
  rw [part, roundHalfAway_of_nonneg (by positivity), Int.floor_eq_iff]
  by_cases up : 5 ≤ digit
  · have half : (1 : ℚ) / 2 ≤ ((digit * unit + rest : ℕ) : ℚ) /
        (10 * unit : ℕ) := by
      rw [div_le_div_iff₀ (by norm_num) positive]
      exact_mod_cast (show 1 * (10 * unit) ≤ (digit * unit + rest) * 2 by
        nlinarith)
    have less : ((digit * unit + rest : ℕ) : ℚ) / (10 * unit : ℕ) < 1 := by
      rw [div_lt_one positive]
      exact_mod_cast (show digit * unit + rest < 10 * unit by nlinarith)
    rw [if_pos up]
    push_cast at half less ⊢
    constructor <;> linarith
  · have less : ((digit * unit + rest : ℕ) : ℚ) / (10 * unit : ℕ) < 1 / 2 := by
      rw [div_lt_div_iff₀ positive (by norm_num)]
      exact_mod_cast (show (digit * unit + rest) * 2 < 1 * (10 * unit) by
        nlinarith)
    rw [if_neg up]
    push_cast at nonneg less ⊢
    constructor <;> linarith

theorem five_le_digitChar {d : ℕ} (digit : d < 10) :
    '5' ≤ d.digitChar ↔ 5 ≤ d := by
  interval_cases d <;> decide

/-- A number is rounded by its first digit that is dropped. -/
theorem roundHalfAway_digits {front rest : List Char} {character : Char}
    (areDigits : AreDigits (front ++ character :: rest)) :
    roundHalfAway
        (digitsValue (front ++ character :: rest) *
          10 ^ (-((rest.length : ℤ) + 1))) =
      digitsValue front + if '5' ≤ character then 1 else 0 := by
  obtain ⟨-, others⟩ := areDigits_append.mp areDigits
  obtain ⟨isDigit, restDigits⟩ := areDigits_cons.mp others
  obtain ⟨d, digit, rfl⟩ := exists_digitChar isDigit
  have value : digitsValue (front ++ d.digitChar :: rest) =
      digitsValue front * (10 * 10 ^ rest.length) +
        (d * 10 ^ rest.length + digitsValue rest) := by
    rw [digitsValue_append, ← List.singleton_append, digitsValue_append,
      digitsValue_digitChar digit, List.length_append, List.length_singleton,
      pow_add, pow_one]
  have unit : (10 : ℚ) ^ (-((rest.length : ℤ) + 1)) =
      ((10 * 10 ^ rest.length : ℕ) : ℚ)⁻¹ := by
    rw [zpow_neg, zpow_add₀ (by norm_num), zpow_natCast, zpow_one, mul_comm]
    push_cast
    rfl
  have rounded := roundHalfAway_div (digitsValue front) digit
    (digitsValue_lt restDigits)
  rw [value, unit, ← div_eq_mul_inv, rounded]
  simp only [five_le_digitChar digit]

/-- A number is rounded to zero if a place before its first digit is left. -/
theorem roundHalfAway_digits_eq_zero {digits : List Char}
    (areDigits : AreDigits digits) {places : ℤ}
    (many : digits.length < places) :
    roundHalfAway (digitsValue digits * 10 ^ (-places)) = 0 := by
  apply roundHalfAway_eq_zero (by positivity)
  have bound : (digitsValue digits : ℚ) < 10 ^ (digits.length : ℤ) := by
    rw [zpow_natCast]
    exact_mod_cast digitsValue_lt areDigits
  calc (digitsValue digits : ℚ) * 10 ^ (-places)
      < 10 ^ (digits.length : ℤ) * 10 ^ (-places) := by gcongr
    _ = 10 ^ ((digits.length : ℤ) + -places) :=
        (zpow_add₀ (by norm_num) _ _).symm
    _ ≤ 10 ^ (-1 : ℤ) := zpow_le_zpow_right₀ (by norm_num) (by omega)
    _ < 1 / 2 := by norm_num

/-- The sign does not matter for the rounding. -/
theorem roundTo_signFactor (digits : ℤ) (negative : Bool) (value : ℚ) :
    roundTo digits (signFactor negative * value) =
      signFactor negative * roundTo digits value := by
  cases negative with
  | false => simp [signFactor]
  | true =>
      simp only [signFactor, if_true, roundTo, neg_mul, one_mul,
        roundHalfAway_neg, Int.cast_neg]

theorem intCast_eq_signFactor (v : ℤ) :
    (v : ℚ) = signFactor (decide (v < 0)) * (v.natAbs : ℚ) := by
  rw [Nat.cast_natAbs, signFactor]
  by_cases negative : v < 0
  · rw [if_pos (by simpa using negative), abs_of_neg negative]
    push_cast
    ring
  · rw [if_neg (by simpa using negative), abs_of_nonneg (by omega), one_mul]

/-- The first digit of a number with the given count of digits. -/
theorem leadingPlace_eq {n count : ℕ} (lower : 10 ^ count ≤ n)
    (upper : n < 10 ^ (count + 1)) (negative : Bool) (place : ℤ) :
    leadingPlace (signFactor negative * ((n : ℚ) * 10 ^ place)) =
      count + place := by
  have positive : (0 : ℚ) < 10 ^ place :=
    zpow_pos (by norm_num) _
  have size : |signFactor negative * ((n : ℚ) * 10 ^ place)| =
      n * 10 ^ place := by
    rw [abs_mul, abs_of_nonneg (by positivity : 0 ≤ (n : ℚ) * 10 ^ place)]
    cases negative <;> simp [signFactor]
  have nonzero : (0 : ℚ) < n * 10 ^ place := by
    have : 0 < 10 ^ count := by positivity
    exact mul_pos (by exact_mod_cast (show 0 < n by omega)) positive
  rw [leadingPlace, size]
  apply le_antisymm
  · rw [← Int.lt_add_one_iff, ← Int.lt_zpow_iff_log_lt (by decide) nonzero]
    calc (n : ℚ) * 10 ^ place < 10 ^ (count + 1) * 10 ^ place :=
          mul_lt_mul_of_pos_right (by exact_mod_cast upper) positive
      _ = ((10 : ℕ) : ℚ) ^ ((count : ℤ) + place + 1) := by
          rw [← zpow_natCast, ← zpow_add₀ (by norm_num)]
          push_cast
          congr 1
          omega
  · rw [← Int.zpow_le_iff_le_log (by decide) nonzero]
    calc ((10 : ℕ) : ℚ) ^ ((count : ℤ) + place) = 10 ^ count * 10 ^ place := by
          push_cast
          rw [zpow_add₀ (by norm_num), zpow_natCast]
      _ ≤ n * 10 ^ place :=
          mul_le_mul_of_nonneg_right (by exact_mod_cast lower) positive.le

end Rounding

end DecimalNumerals
