import AdacHybridMsp430.BinaryFloats

/-!
# Scaling and spacing of machine numbers

A machine number can be scaled up as long as it does not overflow, and down as
long as it stays normal.  The machine numbers from a power of two on are
multiples of one last place, which gives the next machine number.
-/

namespace BinaryFloats

variable {format : Format}

section Scaling

theorem Format.Representable.neg {value : ℚ}
    (representable : format.Representable value) :
    format.Representable (-value) := by
  obtain ⟨significand, exponent, eq, size, exponentLe, range⟩ := representable
  refine ⟨-significand, exponent, ?_, ?_, exponentLe, ?_⟩
  · rw [eq]
    push_cast
    ring
  · rwa [abs_neg]
  · rwa [abs_neg]

theorem representable_neg_iff {value : ℚ} :
    format.Representable (-value) ↔ format.Representable value := by
  constructor
  · intro representable
    rw [← neg_neg value]
    exact representable.neg
  · exact Format.Representable.neg

theorem Format.Representable.abs {value : ℚ}
    (representable : format.Representable value) :
    format.Representable |value| := by
  rcases abs_choice value with same | negated
  · rwa [same]
  · rw [negated]
    exact representable.neg

theorem representable_of_abs {value : ℚ}
    (representable : format.Representable |value|) :
    format.Representable value := by
  rcases abs_choice value with same | negated
  · rwa [same] at representable
  · rw [negated] at representable
    exact representable_neg_iff.mp representable

/-- A number is below the power of two that its significand cannot reach. -/
theorem lt_precision_add {significand exponent bound : ℤ}
    (size : |significand| < 2 ^ format.precision)
    (large : (2 : ℚ) ^ bound ≤ |(significand : ℚ) * 2 ^ exponent|) :
    bound < format.precision + exponent := by
  have power : (0 : ℚ) < 2 ^ exponent := by positivity
  have below : (2 : ℚ) ^ bound < 2 ^ (format.precision + exponent) := by
    calc (2 : ℚ) ^ bound ≤ |(significand : ℚ)| * 2 ^ exponent := by
          rwa [abs_mul, abs_of_pos power] at large
      _ < 2 ^ format.precision * 2 ^ exponent := by
          apply mul_lt_mul_of_pos_right _ power
          exact_mod_cast size
      _ = 2 ^ (format.precision + exponent) := by
          rw [zpow_add₀ (by norm_num), zpow_natCast]
  exact (zpow_lt_zpow_iff_right₀ (by norm_num)).mp below

/-- What is scaled up, or is not below the least normal number, has the
significand of the number it comes from. -/
theorem Format.Representable.of_scaled {value scaled : ℚ} {shift : ℤ}
    (representable : format.Representable value)
    (exact : scaled * 2 ^ shift = value)
    (range : |scaled| < 2 ^ format.maxExponent)
    (normal : shift ≤ 0 ∨
      2 ^ (format.minExponent + format.precision - 1) ≤ |scaled|) :
    format.Representable scaled := by
  obtain ⟨significand, exponent, eq, size, exponentLe, _⟩ := representable
  have scaledEq : scaled = significand * 2 ^ (exponent - shift) := by
    have power : (2 : ℚ) ^ shift ≠ 0 := by positivity
    apply mul_right_cancel₀ power
    rw [exact, eq, mul_assoc, ← zpow_add₀ (by norm_num), sub_add_cancel]
  refine ⟨significand, exponent - shift, scaledEq, size, ?_, range⟩
  rcases normal with up | normal
  · omega
  rw [scaledEq] at normal
  have below := lt_precision_add size normal
  omega

end Scaling

section Multiples

/-- A multiple of a power of two is one of every lower power. -/
theorem exists_multiple_of_le (significand : ℤ) {place exponent : ℤ}
    (le : place ≤ exponent) :
    ∃ multiple : ℤ, (significand : ℚ) * 2 ^ exponent = multiple * 2 ^ place := by
  obtain ⟨shift, rfl⟩ : ∃ shift : ℕ, exponent = place + shift :=
    ⟨(exponent - place).toNat, by omega⟩
  refine ⟨significand * 2 ^ shift, ?_⟩
  rw [zpow_add₀ (by norm_num), zpow_natCast]
  push_cast
  ring

theorem Format.Representable.exists_multiple {value : ℚ}
    (representable : format.Representable value) :
    ∃ multiple : ℤ, value = multiple * 2 ^ format.minExponent := by
  obtain ⟨significand, exponent, rfl, _, exponentLe, _⟩ := representable
  exact exists_multiple_of_le significand exponentLe

variable (format)

/-- The last place of the machine numbers from a power of two on, up to the
next power. -/
def Format.spacing (exponent : ℤ) : ℤ :=
  max format.minExponent (exponent + 1 - format.precision)

variable {format}

theorem Format.Representable.exists_multiple_spacing {value : ℚ} {bound : ℤ}
    (representable : format.Representable value) (large : 2 ^ bound ≤ |value|) :
    ∃ multiple : ℤ, value = multiple * 2 ^ format.spacing bound := by
  obtain ⟨significand, exponent, rfl, size, exponentLe, _⟩ := representable
  apply exists_multiple_of_le
  apply max_le exponentLe
  have below := lt_precision_add size large
  omega

/-- Two different multiples of a power of two are that power apart. -/
theorem add_le_of_multiples {first second : ℚ} {place : ℤ}
    (firstIs : ∃ multiple : ℤ, first = multiple * 2 ^ place)
    (secondIs : ∃ multiple : ℤ, second = multiple * 2 ^ place)
    (less : first < second) : first + 2 ^ place ≤ second := by
  obtain ⟨one, rfl⟩ := firstIs
  obtain ⟨two, rfl⟩ := secondIs
  have power : (0 : ℚ) < 2 ^ place := by positivity
  have lt : (one : ℚ) < two := lt_of_mul_lt_mul_right less power.le
  have next : (one : ℚ) + 1 ≤ two := by
    exact_mod_cast lt
  calc (one : ℚ) * 2 ^ place + 2 ^ place = (one + 1) * 2 ^ place := by ring
    _ ≤ two * 2 ^ place := mul_le_mul_of_nonneg_right next power.le

theorem Format.Representable.le_abs {value : ℚ}
    (representable : format.Representable value) (nonzero : value ≠ 0) :
    2 ^ format.minExponent ≤ |value| := by
  have step := add_le_of_multiples ⟨0, by simp⟩ representable.abs.exists_multiple
    (abs_pos.mpr nonzero)
  rwa [zero_add] at step

end Multiples

section Greatest

variable (format)

/-- The greatest machine number. -/
def Format.greatest : ℚ :=
  (2 ^ format.precision - 1) * 2 ^ (format.maxExponent - format.precision)

variable {format}

theorem greatest_add : format.greatest +
    2 ^ (format.maxExponent - format.precision) = 2 ^ format.maxExponent := by
  have split : (2 : ℚ) ^ format.maxExponent =
      2 ^ format.precision * 2 ^ (format.maxExponent - format.precision) := by
    rw [← zpow_natCast, ← zpow_add₀ (by norm_num)]
    congr 1
    ring
  rw [split, Format.greatest]
  ring

theorem Format.Representable.abs_le_greatest {value : ℚ}
    (representable : format.Representable value) :
    |value| ≤ format.greatest := by
  obtain ⟨significand, exponent, eq, size, _, range⟩ := representable.abs
  rw [abs_abs] at range
  rcases le_total (format.maxExponent - format.precision) exponent with
    above | below
  · have multiple := exists_multiple_of_le significand above
    rw [← eq] at multiple
    by_contra greater
    have next := add_le_of_multiples
      ⟨2 ^ format.precision - 1, by
        rw [Format.greatest]
        push_cast
        rfl⟩ multiple (not_le.mp greater)
    rw [greatest_add] at next
    linarith
  · have significandLe : (significand : ℚ) ≤ 2 ^ format.precision - 1 := by
      have le : significand ≤ 2 ^ format.precision - 1 := by
        have upper := (abs_lt.mp size).2
        omega
      exact_mod_cast le
    have one : (1 : ℚ) ≤ 2 ^ format.precision := one_le_pow₀ (by norm_num)
    calc |value| = significand * 2 ^ exponent := eq
      _ ≤ (2 ^ format.precision - 1) * 2 ^ exponent :=
          mul_le_mul_of_nonneg_right significandLe (by positivity)
      _ ≤ format.greatest := by
          apply mul_le_mul_of_nonneg_left _ (by linarith)
          exact zpow_le_zpow_right₀ (by norm_num) below

end Greatest

section Neighbours

theorem representable_of_multiple {value : ℚ} {place : ℤ}
    (multiple : ∃ multiple : ℤ, value = multiple * 2 ^ place)
    (placeLe : format.minExponent ≤ place)
    (size : |value| ≤ 2 ^ (format.precision + place))
    (range : |value| < 2 ^ format.maxExponent) : format.Representable value := by
  obtain ⟨significand, rfl⟩ := multiple
  apply representable_of_abs_le format _ placeLe range
  have power : (0 : ℚ) < 2 ^ place := by positivity
  rw [abs_mul, abs_of_pos power, zpow_add₀ (by norm_num), zpow_natCast] at size
  have le := le_of_mul_le_mul_right size power
  exact_mod_cast le

/-- The binade that a number leaves by growing. -/
def Growing (bound : ℤ) (value : ℚ) : Prop :=
  value ∈ Set.Ico (2 ^ bound : ℚ) (2 ^ (bound + 1)) ∨
    -value ∈ Set.Ioc (2 ^ bound : ℚ) (2 ^ (bound + 1))

theorem Growing.le_abs {bound : ℤ} {value : ℚ} (growing : Growing bound value) :
    2 ^ bound ≤ |value| := by
  rcases growing with ⟨lower, _⟩ | ⟨lower, _⟩
  · exact lower.trans (le_abs_self value)
  · exact lower.le.trans (neg_le_abs value)

/-- One step does not leave the next power of two behind. -/
theorem Growing.abs_add_le {bound : ℤ} {value : ℚ} (growing : Growing bound value)
    (multiple : ∃ multiple : ℤ, value = multiple * 2 ^ format.spacing bound) :
    |value + 2 ^ format.spacing bound| ≤
      2 ^ (format.precision + format.spacing bound) := by
  have top : ∃ multiple : ℤ,
      (2 : ℚ) ^ (format.precision + format.spacing bound) =
        multiple * 2 ^ format.spacing bound := by
    refine ⟨2 ^ format.precision, ?_⟩
    rw [zpow_add₀ (by norm_num), zpow_natCast]
    push_cast
    rfl
  have binade : (2 : ℚ) ^ (bound + 1) ≤
      2 ^ (format.precision + format.spacing bound) := by
    apply zpow_le_zpow_right₀ (by norm_num)
    have le := le_max_right format.minExponent (bound + 1 - format.precision)
    rw [Format.spacing]
    omega
  have place : (0 : ℚ) < 2 ^ format.spacing bound := by positivity
  have power : (0 : ℚ) < 2 ^ bound := by positivity
  rw [abs_le]
  rcases growing with ⟨lower, upper⟩ | ⟨lower, upper⟩
  · have next := add_le_of_multiples multiple top (upper.trans_le binade)
    exact ⟨by linarith, next⟩
  · have next := add_le_of_multiples multiple ⟨0, by simp⟩
      (show value < 0 by linarith)
    exact ⟨by linarith, by linarith⟩

theorem Format.Representable.spacing_le {value : ℚ} {bound : ℤ}
    (wide : format.minExponent + format.precision ≤ format.maxExponent)
    (representable : format.Representable value) (large : 2 ^ bound ≤ |value|) :
    format.spacing bound ≤ format.maxExponent - format.precision := by
  obtain ⟨_, _, _, _, _, range⟩ := representable
  have below := (zpow_lt_zpow_iff_right₀ (by norm_num)).mp (large.trans_lt range)
  apply max_le
  · omega
  · omega

/-- The machine numbers above one of the binade are one step away, also those
with a smaller magnitude. -/
theorem Growing.add_le {bound : ℤ} {value next : ℚ}
    (growing : Growing bound value)
    (multiple : ∃ multiple : ℤ, value = multiple * 2 ^ format.spacing bound)
    (representable : format.Representable next) (less : value < next) :
    value + 2 ^ format.spacing bound ≤ next := by
  have power : (0 : ℚ) < 2 ^ bound := by positivity
  by_cases large : 2 ^ bound ≤ |next|
  · exact add_le_of_multiples multiple
      (representable.exists_multiple_spacing large) less
  rw [not_le] at large
  obtain ⟨nextLower, nextUpper⟩ := abs_lt.mp large
  rcases growing with ⟨lower, _⟩ | ⟨lower, _⟩
  · linarith
  by_cases placeLe : format.spacing bound ≤ bound
  · have between := exists_multiple_of_le (-1) placeLe
    have step := add_le_of_multiples multiple between (by push_cast; linarith)
    push_cast at step
    linarith
  · -- below the normal numbers all steps are the same
    have precise := format.precision_pos
    have least : format.spacing bound = format.minExponent := by
      rw [Format.spacing] at placeLe ⊢
      omega
    have denormal := representable.exists_multiple
    rw [← least] at denormal
    exact add_le_of_multiples multiple denormal less

/-- The next machine number is one step of the binade away. -/
theorem Growing.isLeast {bound : ℤ} {value : ℚ}
    (growing : Growing bound value)
    (wide : format.minExponent + format.precision ≤ format.maxExponent)
    (representable : format.Representable value)
    (notGreatest : value ≠ format.greatest) :
    IsLeast {next | format.Representable next ∧ value < next}
      (value + 2 ^ format.spacing bound) := by
  have place : (0 : ℚ) < 2 ^ format.spacing bound := by positivity
  have multiple := representable.exists_multiple_spacing growing.le_abs
  have greatest : ∃ multiple : ℤ,
      format.greatest = multiple * 2 ^ format.spacing bound := by
    obtain ⟨factor, eq⟩ := exists_multiple_of_le (2 ^ format.precision - 1)
      (representable.spacing_le wide growing.le_abs)
    refine ⟨factor, ?_⟩
    rw [← eq, Format.greatest]
    push_cast
    rfl
  have valueLe := (le_abs_self value).trans representable.abs_le_greatest
  have nextLe := add_le_of_multiples multiple greatest
    (lt_of_le_of_ne valueLe notGreatest)
  have range : |value + 2 ^ format.spacing bound| < 2 ^ format.maxExponent := by
    have top : (0 : ℚ) < 2 ^ (format.maxExponent - format.precision) := by
      positivity
    have total : format.greatest + _ = _ := greatest_add
    obtain ⟨_, _, _, _, _, valueRange⟩ := representable
    have lower := (abs_lt.mp valueRange).1
    exact abs_lt.mpr ⟨by linarith, by linarith⟩
  constructor
  · refine ⟨?_, by linarith⟩
    have placeLe : format.minExponent ≤ format.spacing bound := le_max_left _ _
    apply representable_of_multiple _ placeLe (growing.abs_add_le multiple) range
    obtain ⟨factor, eq⟩ := multiple
    refine ⟨factor + 1, ?_⟩
    push_cast
    linarith
  · rintro next ⟨nextRepresentable, less⟩
    exact growing.add_le multiple nextRepresentable less

/-- A number is the last one in front of the next one. -/
theorem isGreatest_of_isLeast {value next : ℚ}
    (representable : format.Representable value)
    (least : IsLeast {next | format.Representable next ∧ value < next} next) :
    IsGreatest {value | format.Representable value ∧ value < next} value := by
  refine ⟨⟨representable, least.1.2⟩, ?_⟩
  rintro other ⟨otherRepresentable, less⟩
  by_contra between
  have nextLe := least.2 ⟨otherRepresentable, not_le.mp between⟩
  exact absurd less (not_lt.mpr nextLe)

theorem isLeast_of_isGreatest {value previous : ℚ}
    (representable : format.Representable value)
    (greatest : IsGreatest
      {previous | format.Representable previous ∧ previous < value} previous) :
    IsLeast {value | format.Representable value ∧ previous < value} value := by
  refine ⟨⟨representable, greatest.1.2⟩, ?_⟩
  rintro other ⟨otherRepresentable, less⟩
  by_contra between
  have previousLe := greatest.2 ⟨otherRepresentable, not_le.mp between⟩
  exact absurd less (not_lt.mpr previousLe)

/-- The neighbours on the other side of zero. -/
theorem isLeast_neg_iff {value next : ℚ} :
    IsLeast {next | format.Representable next ∧ -value < next} (-next) ↔
      IsGreatest {next | format.Representable next ∧ next < value} next := by
  constructor
  · rintro ⟨⟨representable, less⟩, least⟩
    refine ⟨⟨representable_neg_iff.mp representable, neg_lt_neg_iff.mp less⟩, ?_⟩
    rintro other ⟨otherRepresentable, otherLess⟩
    exact neg_le_neg_iff.mp
      (least ⟨otherRepresentable.neg, neg_lt_neg otherLess⟩)
  · rintro ⟨⟨representable, less⟩, greatest⟩
    refine ⟨⟨representable.neg, neg_lt_neg less⟩, ?_⟩
    rintro other ⟨otherRepresentable, otherLess⟩
    exact neg_le.mp (greatest ⟨otherRepresentable.neg, neg_lt.mp otherLess⟩)

end Neighbours

section Halving

theorem representable_two_zpow {exponent : ℤ}
    (lower : format.minExponent ≤ exponent)
    (upper : exponent < format.maxExponent) :
    format.Representable (2 ^ exponent) := by
  refine ⟨1, exponent, by simp, ?_, lower, ?_⟩
  · rw [abs_one]
    exact one_lt_pow₀ (by norm_num) format.precision_pos.ne'
  · rw [abs_of_pos (by positivity)]
    exact zpow_lt_zpow_right₀ (by norm_num) upper

theorem nearest_half_two_zpow {exponent : ℤ}
    (lower : format.minExponent < exponent)
    (upper : exponent ≤ format.maxExponent) :
    format.nearest (2 ^ exponent / 2) = 2 ^ (exponent - 1) := by
  have representable : format.Representable (2 ^ (exponent - 1)) := by
    apply representable_two_zpow
    · omega
    · omega
  have half : (2 : ℚ) ^ exponent / 2 = 2 ^ (exponent - 1) := by
    rw [zpow_sub_one₀ (by norm_num), div_eq_mul_inv]
  rw [half, nearest_of_representable representable]

/-- Half of the least positive machine number is rounded to zero. -/
theorem nearest_half_minExponent :
    format.nearest (2 ^ format.minExponent / 2) = 0 := by
  have half : (2 : ℚ) ^ format.minExponent / 2 = 2 ^ (format.minExponent - 1) := by
    rw [zpow_sub_one₀ (by norm_num), div_eq_mul_inv]
  have place : format.lastPlace (2 ^ format.minExponent / 2) =
      format.minExponent := by
    have log := Int.log_zpow (R := ℚ) (b := 2) (by norm_num)
      (format.minExponent - 1)
    rw [Nat.cast_ofNat] at log
    have precise := format.precision_pos
    rw [Format.lastPlace, half, abs_of_pos (by positivity), log]
    omega
  have power : (2 : ℚ) ^ format.minExponent ≠ 0 := by positivity
  have quotient : (2 : ℚ) ^ format.minExponent / 2 / 2 ^ format.minExponent =
      1 / 2 := by
    field_simp
  have rounded : roundHalfEven (1 / 2) = 0 := by
    norm_num [roundHalfEven]
  rw [Format.nearest, place, quotient, rounded]
  simp

end Halving

end BinaryFloats
