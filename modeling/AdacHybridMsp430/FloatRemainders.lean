import AdacHybridMsp430.FloatDecompositions
import Mathlib.Algebra.Order.Round

/-!
# Remainders of machine numbers

`Remainder` divides binary digit by digit, for as many digits as the exponents
differ by, and keeps the remainder and the last digit of the quotient.  A
comparison with half of the divisor then rounds the quotient to the nearest
integer.
-/

namespace AdacHybridMsp430

namespace FloatAttributes

open BinaryFloats BoundedLoops

section Nearest

/-- The integer nearest to a number, the even one of two. -/
structure Nearest (value : ℚ) (n : ℤ) : Prop where
  least : ∀ other : ℤ, |value - n| ≤ |value - other|
  even : ∀ other : ℤ, other ≠ n → |value - other| = |value - n| → Even n

/-- The integer part of a number. -/
def truncate (value : ℚ) : ℤ :=
  if 0 ≤ value then ⌊value⌋ else ⌈value⌉

theorem nearest_of_abs_le {value : ℚ} {n : ℤ} (near : |value - n| ≤ 1 / 2)
    (tie : |value - n| = 1 / 2 → Even n) : Nearest value n := by
  have far : ∀ other : ℤ, other ≠ n → 1 ≤ |value - n| + |value - other| := by
    intro other different
    have apart : (1 : ℚ) ≤ |((other - n : ℤ) : ℚ)| := by
      exact_mod_cast Int.one_le_abs (sub_ne_zero.mpr different)
    calc (1 : ℚ) ≤ |((other - n : ℤ) : ℚ)| := apart
      _ = |(value - n) - (value - other)| := by
          congr 1
          push_cast
          ring
      _ ≤ |value - n| + |value - other| := abs_sub _ _
  constructor
  · intro other
    rcases eq_or_ne other n with rfl | different
    · exact le_rfl
    · linarith [far other different]
  · intro other different same
    apply tie
    linarith [far other different]

/-- The share of the next integer decides, and the parity where it is one half. -/
theorem nearest_add_one {value share : ℚ} {quotient : ℤ}
    (split : value = quotient + share) (lt : share < 1)
    (up : 1 / 2 < share ∨ (share = 1 / 2 ∧ Odd quotient)) :
    Nearest value (quotient + 1) := by
  have large : 1 / 2 ≤ share := by
    rcases up with above | ⟨tie, _⟩
    · exact above.le
    · exact tie.ge
  have distance : |value - ((quotient + 1 : ℤ) : ℚ)| = 1 - share := by
    rw [split, abs_sub_comm, abs_of_nonneg]
    · push_cast
      ring
    · push_cast
      linarith
  apply nearest_of_abs_le
  · rw [distance]
    linarith
  · intro tie
    rw [distance] at tie
    rcases up with above | ⟨_, odd⟩
    · linarith
    · exact odd.add_one

theorem nearest_self {value share : ℚ} {quotient : ℤ}
    (split : value = quotient + share) (nonneg : 0 ≤ share)
    (down : ¬ (1 / 2 < share ∨ (share = 1 / 2 ∧ Odd quotient))) :
    Nearest value quotient := by
  have small : share ≤ 1 / 2 := by
    by_contra above
    exact down (Or.inl (not_le.mp above))
  have distance : |value - quotient| = share := by
    rw [split, add_sub_cancel_left, abs_of_nonneg nonneg]
  apply nearest_of_abs_le
  · rw [distance]
    exact small
  · intro tie
    rw [distance] at tie
    rw [← Int.not_odd_iff_even]
    intro odd
    exact down (Or.inr ⟨tie, odd⟩)

theorem Nearest.abs_le {value : ℚ} {n : ℤ} (nearest : Nearest value n) :
    |value - n| ≤ 1 / 2 :=
  (nearest.least (round value)).trans (abs_sub_round value)

theorem Nearest.neg {value : ℚ} {n : ℤ} (nearest : Nearest value n) :
    Nearest (-value) (-n) := by
  have mirrored : ∀ m : ℤ, |-value - ((-m : ℤ) : ℚ)| = |value - m| := by
    intro m
    rw [← abs_neg]
    congr 1
    push_cast
    ring
  constructor
  · intro other
    rw [mirrored, ← neg_neg other, mirrored]
    exact nearest.least (-other)
  · intro other different same
    rw [mirrored, ← neg_neg other, mirrored] at same
    rw [even_neg]
    apply nearest.even (-other) _ same
    rintro rfl
    exact different (neg_neg other).symm

theorem even_truncate_iff (value : ℚ) :
    Even (truncate value) ↔ Even ⌊|value|⌋ := by
  unfold truncate
  split
  · rename_i nonneg
    rw [abs_of_nonneg nonneg]
  · rename_i negative
    rw [abs_of_neg (not_le.mp negative), Int.floor_neg, even_neg]

end Nearest

section Division

/-- The variables of the subtraction loop in front of the last digits of the
quotient: the digits so far, the remainder that they leave, and the multiple of
the divisor for the next digit. -/
structure Divides (arg divisor : ℚ) (digits : ℕ) (state : Division) : Prop where
  p : state.p * 2 = divisor * 2 ^ digits
  quotient : ∃ quotient : ℤ,
    arg = quotient * (divisor * 2 ^ digits) + state.ieeeRem ∧
      (state.pEven = true ↔ Even quotient)
  nonneg : 0 ≤ state.ieeeRem
  lt : state.ieeeRem < divisor * 2 ^ digits

/-- One pass divides by one more digit. -/
theorem Divides.pass {arg divisor : ℚ} {digits : ℕ} {state : Division}
    (divides : Divides arg divisor (digits + 1) state) :
    Divides arg divisor digits state.pass := by
  obtain ⟨p, ⟨quotient, eq, _⟩, nonneg, lt⟩ := divides
  rw [pow_succ] at p eq lt
  have next : state.p = divisor * 2 ^ digits := by
    linarith
  unfold Division.pass
  split
  · rename_i digit
    refine ⟨?_, ⟨2 * quotient + 1, ?_, ?_⟩, ?_, ?_⟩
    · dsimp only
      linarith
    · push_cast
      linear_combination eq + next
    · simp
    · dsimp only
      linarith
    · dsimp only
      linarith
  · rename_i digit
    refine ⟨?_, ⟨2 * quotient, ?_, ?_⟩, nonneg, ?_⟩
    · dsimp only
      linarith
    · push_cast
      linear_combination eq
    · simp
    · dsimp only
      linarith

/-- The quotient and the remainder after the subtraction loop. -/
structure Divided (arg divisor : ℚ) (state : Division) : Prop where
  quotient : ∃ quotient : ℤ, arg = quotient * divisor + state.ieeeRem ∧
    (state.pEven = true ↔ Even quotient)
  nonneg : 0 ≤ state.ieeeRem
  lt : state.ieeeRem < divisor

theorem Divides.divided {arg divisor : ℚ} {digits : ℕ} {state : Division}
    (divides : Divides arg divisor digits state) :
    Divided arg divisor
      (Fin.foldr digits (fun _ state => state.pass) state) := by
  have divided : Divides arg divisor 0
      (Fin.foldr digits (fun _ state => state.pass) state) := by
    apply foldr_spec (Divides arg divisor) _ divides
    intro _ _ holds
    exact holds.pass
  obtain ⟨_, quotient, nonneg, lt⟩ := divided
  rw [pow_zero, mul_one] at lt
  simp only [pow_zero, mul_one] at quotient
  exact ⟨quotient, nonneg, lt⟩

end Division

section Modulus

variable {format : Format}

/-- The divisor with the exponent of the argument leaves at most one digit. -/
theorem divides_start {arg divisor argFrac frac : ℚ} {argExpo expo : ℤ}
    (argNormalized : Normalized arg argFrac argExpo)
    (normalized : Normalized divisor frac expo) (positive : 0 < divisor)
    (le : divisor ≤ arg) :
    Divides arg divisor (argExpo - expo + 1).toNat
      ⟨frac * 2 ^ argExpo, arg, true⟩ := by
  have argLt := argNormalized.lt_two_zpow
  have lower := normalized.two_zpow_le
  rw [abs_of_pos (positive.trans_le le)] at argLt
  rw [abs_of_pos positive] at lower
  have order := (zpow_lt_zpow_iff_right₀ (by norm_num)).mp
    ((lower.trans le).trans_lt argLt)
  obtain ⟨digits, count⟩ : ∃ digits : ℕ, argExpo - expo + 1 = digits :=
    ⟨(argExpo - expo + 1).toNat, by omega⟩
  have exponent : argExpo = expo - 1 + digits := by
    omega
  have scaled : frac * 2 ^ argExpo * 2 = divisor * 2 ^ digits := by
    rw [normalized.exact, exponent, zpow_add₀ (by norm_num),
      zpow_sub_one₀ (by norm_num), zpow_natCast]
    ring
  rw [count, Int.toNat_natCast]
  refine ⟨scaled, ⟨0, by simp, by simp⟩, (positive.trans_le le).le, ?_⟩
  calc arg < 2 ^ argExpo := argLt
    _ = 2 ^ (expo - 1) * 2 ^ digits := by
        rw [exponent, zpow_add₀ (by norm_num), zpow_natCast]
    _ ≤ divisor * 2 ^ digits :=
        mul_le_mul_of_nonneg_right lower (by positivity)

/-- The first part of `Remainder` divides, also where there is nothing to
subtract. -/
theorem modulus_spec (normal : format.minExponent + format.precision ≤ 0)
    {arg divisor : ℚ} (argMachine : format.Representable arg) (nonneg : 0 ≤ arg)
    (machine : format.Representable divisor) (positive : 0 < divisor)
    {fuel : ℕ} (enough : passes format < fuel) :
    ∃ state pExp, modulus format fuel arg divisor = some (state, pExp) ∧
      Divided arg divisor state := by
  obtain ⟨parts, ends, normalized, _⟩ :=
    decompose_spec machine positive.ne' enough
  unfold modulus
  by_cases less : arg < divisor
  · rw [if_pos less, exponent, ends]
    exact ⟨_, _, rfl, ⟨0, by simp, by simp⟩, nonneg, less⟩
  have le := not_lt.mp less
  have argNonzero : arg ≠ 0 := (positive.trans_le le).ne'
  obtain ⟨argParts, argEnds, argNormalized, _⟩ :=
    decompose_spec argMachine argNonzero enough
  have size := argNormalized.natAbs_le argMachine argNonzero
  obtain ⟨scaled, products, _, value, composes, _⟩ :=
    compose_spec normal normalized machine argParts.expo enough (by omega)
  have start := divides_start argNormalized normalized positive le
  rw [← value] at start
  rw [if_neg less, argEnds, ends]
  simp only [Option.bind_eq_bind, Option.bind_some, composes]
  exact ⟨_, _, rfl, start.divided⟩

end Modulus

section Correction

/-- Both scalings of the comparison. -/
theorem correct_eq (state : Division) (pExp : ℤ) (y : ℚ) :
    correct state pExp y =
      if |y| / 2 < state.ieeeRem ∨ (state.ieeeRem = |y| / 2 ∧ ¬state.pEven) then
        state.ieeeRem - |y|
      else
        state.ieeeRem := by
  unfold correct
  dsimp only
  congr 1
  split
  · rw [mul_one_div]
  · have less : |y| < state.ieeeRem * 2 ↔ |y| / 2 < state.ieeeRem := by
      rw [div_lt_iff₀ (by norm_num)]
    have same : state.ieeeRem * 2 = |y| ↔ state.ieeeRem = |y| / 2 := by
      rw [eq_div_iff (by norm_num)]
    rw [less, same]

/-- The comparison in units of the divisor. -/
theorem correct_guard_iff {y share : ℚ} {state : Division} (positive : 0 < |y|)
    (rem : state.ieeeRem = share * |y|) :
    (|y| / 2 < state.ieeeRem ∨ (state.ieeeRem = |y| / 2 ∧ ¬state.pEven)) ↔
      1 / 2 < share ∨ (share = 1 / 2 ∧ ¬state.pEven) := by
  have half : |y| / 2 = 1 / 2 * |y| := by
    ring
  rw [rem, half, mul_lt_mul_iff_left₀ positive, mul_left_inj' positive.ne']

/-- The quotient is corrected to the nearest integer. -/
theorem correct_spec {arg y : ℚ} {state : Division} (pExp : ℤ)
    (divided : Divided arg |y| state) :
    ∃ n : ℤ, correct state pExp y = arg - n * |y| ∧ Nearest (arg / |y|) n := by
  obtain ⟨⟨quotient, eq, even⟩, nonneg, lt⟩ := divided
  have positive : 0 < |y| := nonneg.trans_lt lt
  obtain ⟨share, rem⟩ : ∃ share, state.ieeeRem = share * |y| :=
    ⟨state.ieeeRem / |y|, (div_mul_cancel₀ _ positive.ne').symm⟩
  have value : arg / |y| = quotient + share := by
    rw [eq, rem]
    field_simp
  have odd : ¬state.pEven = true ↔ Odd quotient := by
    rw [even, Int.not_even_iff_odd]
  rw [rem] at nonneg lt
  have shareNonneg : 0 ≤ share := nonneg_of_mul_nonneg_left nonneg positive
  have shareLt : share < 1 := by
    rwa [mul_lt_iff_lt_one_left positive] at lt
  simp only [correct_eq, correct_guard_iff positive rem]
  simp only [odd]
  split
  · rename_i up
    refine ⟨quotient + 1, ?_, nearest_add_one value shareLt up⟩
    push_cast
    linarith
  · rename_i down
    exact ⟨quotient, by linarith, nearest_self value shareNonneg down⟩

/-- The flag is the parity of the integer part of the quotient. -/
theorem Divided.even_iff {arg divisor : ℚ} {state : Division}
    (divided : Divided arg divisor state) :
    state.pEven = true ↔ Even ⌊arg / divisor⌋ := by
  obtain ⟨⟨quotient, eq, even⟩, nonneg, lt⟩ := divided
  have positive : 0 < divisor := nonneg.trans_lt lt
  have floor : ⌊arg / divisor⌋ = quotient := by
    rw [Int.floor_eq_iff, le_div_iff₀ positive, div_lt_iff₀ positive, eq]
    constructor
    · linarith
    · linarith
  rw [even, floor]

end Correction

section Signs

theorem arg_eq (x : ℚ) : arg x = |x| := by
  unfold arg
  split
  · exact (abs_of_pos ‹_›).symm
  · exact (abs_of_nonpos (not_lt.mp ‹_›)).symm

theorem signX_cases (x : ℚ) :
    (signX x = 1 ∧ |x| = x) ∨ (signX x = -1 ∧ |x| = -x) := by
  unfold signX
  split
  · exact Or.inl ⟨rfl, abs_of_pos ‹_›⟩
  · exact Or.inr ⟨rfl, abs_of_nonpos (not_lt.mp ‹_›)⟩

/-- The quotient of two numbers from the quotient of their magnitudes. -/
theorem nearest_of_abs {x y : ℚ} {n : ℤ} (nearest : Nearest (|x| / |y|) n) :
    ∃ m : ℤ, signX x * (|x| - n * |y|) = x - m * y ∧ Nearest (x / y) m := by
  rcases signX_cases x with ⟨sign, absX⟩ | ⟨sign, absX⟩
  · rcases abs_choice y with absY | absY
    · rw [absX, absY] at nearest
      refine ⟨n, ?_, nearest⟩
      rw [sign, absX, absY, one_mul]
    · rw [absX, absY, div_neg] at nearest
      refine ⟨-n, ?_, ?_⟩
      · rw [sign, absX, absY]
        push_cast
        ring
      · rw [← neg_neg (x / y)]
        exact nearest.neg
  · rcases abs_choice y with absY | absY
    · rw [absX, absY, neg_div] at nearest
      refine ⟨-n, ?_, ?_⟩
      · rw [sign, absX, absY]
        push_cast
        ring
      · rw [← neg_neg (x / y)]
        exact nearest.neg
    · rw [absX, absY, neg_div_neg_eq] at nearest
      refine ⟨n, ?_, nearest⟩
      rw [sign, absX, absY]
      ring

end Signs

section Packages

/-- `Remainder` returns what the multiple of the second number nearest to the
first one leaves, and the flag after the subtraction loop is the parity of the
truncated quotient. -/
theorem remainders (package : Package) {fuel : ℕ}
    (enough : passes package.format < fuel) {x y : ℚ}
    (xMachine : package.format.Representable x)
    (yMachine : package.format.Representable y) (nonzero : y ≠ 0) :
    ∃ (n : ℤ) (state : Division) (pExp : ℤ),
      remainder package.format fuel x y = some (.ok (x - n * y)) ∧
      Nearest (x / y) n ∧
      |x - n * y| ≤ |y| / 2 ∧
      modulus package.format fuel (arg x) |y| = some (state, pExp) ∧
      (state.pEven = true ↔ Even (truncate (x / y))) := by
  obtain ⟨state, pExp, ends, divided⟩ := modulus_spec (package_normal package)
    xMachine.abs (abs_nonneg x) yMachine.abs (abs_pos.mpr nonzero) enough
  obtain ⟨n, corrected, nearest⟩ := correct_spec pExp divided
  obtain ⟨m, signed, isNearest⟩ := nearest_of_abs nearest
  have positive : 0 < |y| := abs_pos.mpr nonzero
  refine ⟨m, state, pExp, ?_, isNearest, ?_, ?_, ?_⟩
  · rw [remainder, if_neg nonzero, arg_eq, ends]
    change some (Except.ok (signX x * correct state pExp y)) = _
    rw [corrected, signed]
  · have near := mul_le_mul_of_nonneg_right isNearest.abs_le positive.le
    calc |x - m * y| = |x / y - m| * |y| := by
          rw [← abs_mul, sub_mul, div_mul_cancel₀ x nonzero]
      _ ≤ 1 / 2 * |y| := near
      _ = |y| / 2 := by ring
  · rw [arg_eq, ends]
  · rw [even_truncate_iff, abs_div]
    exact divided.even_iff

/-- A tie: five halves are rounded down to two. -/
theorem remainders_tie :
    ∃ (n : ℤ) (state : Division) (pExp : ℤ),
      remainder Package.fatLFlt.format 2099 5 2 = some (.ok (5 - n * 2)) ∧
      Nearest (5 / 2) n ∧
      |5 - (n : ℚ) * 2| ≤ |(2 : ℚ)| / 2 ∧
      modulus Package.fatLFlt.format 2099 (arg 5) |2| = some (state, pExp) ∧
      (state.pEven = true ↔ Even (truncate (5 / 2))) := by
  have machine : ∀ value : ℤ, |value| < 8 →
      Package.fatLFlt.format.Representable value := by
    intro value small
    apply representable_intCast
    · exact small.trans (by decide)
    · calc |(value : ℚ)| < 8 := by exact_mod_cast small
        _ = 2 ^ (3 : ℤ) := by norm_num
        _ < 2 ^ (1024 : ℤ) := zpow_lt_zpow_right₀ (by norm_num) (by decide)
  apply remainders
  · decide
  · exact machine 5 (by decide)
  · exact machine 2 (by decide)
  · norm_num

end Packages

end FloatAttributes

end AdacHybridMsp430
