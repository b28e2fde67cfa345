import AdacHybridMsp430.BinaryFloatSpacing

/-!
# Integers among machine numbers

The machine numbers from the power of two with the full precision on are
integers, and below it every integer is a machine number.  A number that is
added to that power is therefore rounded to an integer.
-/

namespace BinaryFloats

variable {format : Format}

section Integers

theorem representable_zero : format.Representable 0 :=
  ⟨0, format.minExponent, by simp, by simp, le_rfl, by simp; positivity⟩

theorem representable_of_int {n : ℤ}
    (wide : (format.precision : ℤ) ≤ format.maxExponent)
    (size : |(n : ℚ)| ≤ 2 ^ (format.precision - 1 : ℤ)) :
    format.Representable n := by
  have less : |(n : ℚ)| < 2 ^ (format.precision : ℤ) :=
    size.trans_lt (zpow_lt_zpow_right₀ (by norm_num) (by omega))
  apply representable_intCast
  · rw [zpow_natCast] at less
    exact_mod_cast less
  · exact less.trans_le (zpow_le_zpow_right₀ (by norm_num) wide)

/-- The machine numbers above have no place behind the point. -/
theorem Format.Representable.exists_int {value : ℚ}
    (representable : format.Representable value)
    (large : 2 ^ (format.precision - 1 : ℤ) ≤ |value|) :
    ∃ n : ℤ, value = n := by
  obtain ⟨n, eq⟩ := representable.exists_multiple_spacing large
  have minimum := format.minExponent_nonpos
  have place : format.spacing (format.precision - 1) = 0 := by
    rw [Format.spacing]
    omega
  rw [place, zpow_zero, mul_one] at eq
  exact ⟨n, eq⟩

/-- The places of a machine number behind the point. -/
theorem Format.Representable.fract {value : ℚ}
    (representable : format.Representable value) (nonneg : 0 ≤ value) :
    format.Representable (Int.fract value) := by
  have le : Int.fract value ≤ value := by
    have floor : (0 : ℚ) ≤ ⌊value⌋ := by
      exact_mod_cast Int.floor_nonneg.mpr nonneg
    rw [Int.fract]
    linarith
  have fractNonneg := Int.fract_nonneg value
  obtain ⟨significand, exponent, eq, size, exponentLe, range⟩ := representable
  rcases le_total 0 exponent with integral | below
  · obtain ⟨n, multiple⟩ := exists_multiple_of_le significand integral
    rw [zpow_zero, mul_one] at multiple
    rw [eq, multiple, Int.fract_intCast]
    exact representable_zero
  · obtain ⟨n, multiple⟩ := exists_multiple_of_le ⌊value⌋ below
    rw [zpow_zero, mul_one] at multiple
    have power : (0 : ℚ) < 2 ^ exponent := by positivity
    have fractEq : Int.fract value = ((significand - n : ℤ) : ℚ) * 2 ^ exponent := by
      rw [Int.fract, multiple]
      nth_rewrite 1 [eq]
      push_cast
      ring
    refine ⟨significand - n, exponent, fractEq, ?_, exponentLe, ?_⟩
    · have smaller : |((significand - n : ℤ) : ℚ)| ≤ |(significand : ℚ)| := by
        apply le_of_mul_le_mul_right _ power
        calc |((significand - n : ℤ) : ℚ)| * 2 ^ exponent = |Int.fract value| := by
              rw [fractEq, abs_mul, abs_of_pos power]
          _ ≤ |value| := by
              rwa [abs_of_nonneg fractNonneg, abs_of_nonneg nonneg]
          _ = |(significand : ℚ)| * 2 ^ exponent := by
              rw [eq, abs_mul, abs_of_pos power]
      have smaller : |significand - n| ≤ |significand| := by
        exact_mod_cast smaller
      exact smaller.trans_lt size
    · rw [abs_of_nonneg nonneg] at range
      rw [abs_of_nonneg fractNonneg]
      exact le.trans_lt range

end Integers

section Units

theorem lastPlace_eq_zero {value : ℚ}
    (lower : 2 ^ (format.precision - 1 : ℤ) ≤ value)
    (upper : value < 2 ^ (format.precision : ℤ)) : format.lastPlace value = 0 := by
  have positive : 0 < value := lt_of_lt_of_le (by positivity) lower
  have minimum := format.minExponent_nonpos
  have logLower := (Int.zpow_le_iff_le_log (b := 2) (by decide) positive).mp lower
  have logUpper := (Int.lt_zpow_iff_log_lt (b := 2) (by decide) positive).mp upper
  rw [Format.lastPlace, abs_of_pos positive]
  omega

/-- A sum with the power of two is rounded to an integer next to it. -/
theorem nearest_add_unit {value : ℚ} (nonneg : 0 ≤ value)
    (small : value < 2 ^ (format.precision - 1 : ℤ)) :
    format.nearest (2 ^ (format.precision - 1 : ℤ) + value) =
        2 ^ (format.precision - 1 : ℤ) + ⌊value⌋ ∨
      format.nearest (2 ^ (format.precision - 1 : ℤ) + value) =
          2 ^ (format.precision - 1 : ℤ) + (⌊value⌋ + 1) ∧
        (⌊value⌋ : ℚ) < value := by
  have precise := format.precision_pos
  obtain ⟨bits, eq⟩ : ∃ bits : ℕ, format.precision = bits + 1 :=
    ⟨format.precision - 1, by omega⟩
  have exponent : (format.precision - 1 : ℤ) = bits := by
    omega
  have power : (2 : ℚ) ^ (format.precision - 1 : ℤ) = ((2 ^ bits : ℤ) : ℚ) := by
    rw [exponent, zpow_natCast]
    push_cast
    rfl
  have place : format.lastPlace (2 ^ (format.precision - 1 : ℤ) + value) = 0 := by
    apply lastPlace_eq_zero
    · linarith
    · calc (2 : ℚ) ^ (format.precision - 1 : ℤ) + value
          < 2 ^ (format.precision - 1 : ℤ) + 2 ^ (format.precision - 1 : ℤ) := by
            linarith
        _ = 2 ^ (format.precision : ℤ) := by
            rw [zpow_sub_one₀ (by norm_num)]
            ring
  rw [Format.nearest, place, zpow_zero, div_one, mul_one, power]
  have floor : ⌊((2 ^ bits : ℤ) : ℚ) + value⌋ = 2 ^ bits + ⌊value⌋ :=
    Int.floor_intCast_add (2 ^ bits) value
  rcases roundHalfEven_cases (((2 ^ bits : ℤ) : ℚ) + value) with same | ⟨next, above⟩
  · left
    rw [same, floor]
    push_cast
    ring
  · right
    rw [next, floor]
    rw [floor] at above
    push_cast at above ⊢
    exact ⟨by ring, by linarith⟩

end Units

end BinaryFloats
