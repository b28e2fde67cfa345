import Mathlib.Data.Nat.Digits.Lemmas

/-!
# Numerals in a base

The digits of a number in a base, the leading one first, without superfluous
zeros.
-/

namespace BasedNumerals

/-- The digits of a number; zero has one. -/
def numeral (base n : ℕ) : List ℕ :=
  if n = 0 then [0] else (Nat.digits base n).reverse

/-- The number that digits stand for. -/
def numeralValue (base : ℕ) (digits : List ℕ) : ℕ :=
  Nat.ofDigits base digits.reverse

variable {base : ℕ}

theorem numeral_of_lt {n : ℕ} (lt : n < base) : numeral base n = [n] := by
  unfold numeral
  split
  · rename_i zero
    rw [zero]
  · rename_i nonzero
    rw [Nat.digits_of_lt base n nonzero lt, List.reverse_singleton]

theorem numeral_of_le (valid : 1 < base) {n : ℕ} (le : base ≤ n) :
    numeral base n = numeral base (n / base) ++ [n % base] := by
  have quotient : n / base ≠ 0 := (Nat.div_pos le (by omega)).ne'
  rw [numeral, numeral, if_neg (by omega), if_neg quotient,
    Nat.digits_def' valid (by omega), List.reverse_cons]

theorem numeral_ne_nil (n : ℕ) : numeral base n ≠ [] := by
  unfold numeral
  split
  · exact List.cons_ne_nil _ _
  · rename_i nonzero
    rw [Ne, List.reverse_eq_nil_iff]
    exact Nat.digits_ne_nil_iff_ne_zero.mpr nonzero

@[simp]
theorem numeralValue_numeral (n : ℕ) : numeralValue base (numeral base n) = n := by
  unfold numeral
  split
  · rename_i zero
    simp [numeralValue, zero]
  · rw [numeralValue, List.reverse_reverse, Nat.ofDigits_digits]

theorem lt_of_mem_numeral (valid : 1 < base) {n digit : ℕ}
    (member : digit ∈ numeral base n) : digit < base := by
  unfold numeral at member
  split at member
  · rw [List.mem_singleton.mp member]
    omega
  · exact Nat.digits_lt_base valid (List.mem_reverse.mp member)

/-- Only the number zero has a leading zero. -/
theorem numeral_of_head_zero {n : ℕ} (leading : (numeral base n).head? = some 0) :
    numeral base n = [0] := by
  unfold numeral at leading ⊢
  split
  · rfl
  · rename_i nonzero
    rw [if_neg nonzero, List.head?_reverse, List.getLast?_eq_some_getLast
      (Nat.digits_ne_nil_iff_ne_zero.mpr nonzero)] at leading
    exact absurd (Option.some_inj.mp leading)
      (Nat.getLast_digit_ne_zero base nonzero)

theorem length_numeral_le (valid : 1 < base) {n count : ℕ} (lt : n < base ^ count)
    (positive : 0 < count) : (numeral base n).length ≤ count := by
  unfold numeral
  split
  · exact positive
  · rw [List.length_reverse]
    exact (Nat.digits_length_le_iff valid n).mpr lt

end BasedNumerals
