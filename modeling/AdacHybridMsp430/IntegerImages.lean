import AdacHybridMsp430.RuntimeSystem
import AdacHybridMsp430.TextBuffers
import Mathlib.Data.Nat.Digits.Defs
import Mathlib.Tactic.IntervalCases

/-!
# Images of integers

`System.Img_Int` writes the decimal numeral of every integer, the least one
included: the digits are taken from the negative of the absolute value.
-/

namespace AdacHybridMsp430

namespace IntegerImages

open TextBuffers

/-- `Set_Digits`, for a value `t` that is zero or negative. -/
def setDigits (t : ℤ) (buffer : Buffer) : Buffer :=
  if t ≤ -10 then
    (setDigits (t.tdiv 10) buffer).put (Char.ofNat (48 - t.tmod 10).toNat)
  else
    buffer.put (Char.ofNat (48 - t).toNat)
termination_by t.natAbs
decreasing_by
  rw [Int.natAbs_tdiv]
  exact Nat.div_lt_self (by omega) (by decide)

def setImageInteger (v : ℤ) (buffer : Buffer) : Buffer :=
  if 0 ≤ v then setDigits (-v) buffer
  else setDigits v (buffer.put '-')

/-- `Image_Integer`, for a string that holds `s`. -/
def imageInteger (v : ℤ) (s : ℤ → Char) : Buffer :=
  setImageInteger v
    (if 0 ≤ v then { text := Function.update s 1 ' ', last := 1 }
    else { text := s, last := 0 })

/-- The decimal numeral of an integer. -/
def decimalNumeral (v : ℤ) : List Char :=
  (if v < 0 then ['-'] else []) ++ Nat.toDigits 10 v.natAbs

/-- The digit of a number below ten. -/
theorem ofNat_eq_digitChar {digit : ℕ} (lt : digit < 10) :
    Char.ofNat (48 + digit) = digit.digitChar := by
  interval_cases digit <;> rfl

/-- The digits of the absolute value are appended. -/
theorem setDigits_eq (n : ℕ) (buffer : Buffer) :
    setDigits (-n) buffer = buffer.putAll (Nat.toDigits 10 n) := by
  induction n using Nat.strong_induction_on generalizing buffer with
  | _ n ih =>
      rw [setDigits]
      by_cases large : 10 ≤ n
      · have quotient : (-(n : ℤ)).tdiv 10 = -((n / 10 : ℕ) : ℤ) := by
          rw [Int.neg_tdiv]
          rfl
        have digit : (48 - (-(n : ℤ)).tmod 10).toNat = 48 + n % 10 := by
          rw [Int.neg_tmod]
          have cast : (n : ℤ).tmod 10 = ((n % 10 : ℕ) : ℤ) := rfl
          omega
        rw [if_pos (by omega), quotient, ih (n / 10) (by omega), digit,
          ofNat_eq_digitChar (by omega), Buffer.put_eq_putAll,
          Buffer.putAll_putAll, Nat.toDigits_of_base_le (by decide) large]
      · have digit : (48 - -(n : ℤ)).toNat = 48 + n := by
          omega
        rw [if_neg (by omega), digit, ofNat_eq_digitChar (by omega),
          Nat.toDigits_of_lt_base (by omega), Buffer.put_eq_putAll]

/-- `Set_Image_Integer` appends the numeral. -/
theorem setImageInteger_eq (v : ℤ) (buffer : Buffer) :
    setImageInteger v buffer = buffer.putAll (decimalNumeral v) := by
  rw [setImageInteger, decimalNumeral]
  by_cases nonneg : 0 ≤ v
  · have digits := setDigits_eq v.natAbs buffer
    rw [Int.natAbs_of_nonneg nonneg] at digits
    rw [if_pos nonneg, if_neg (by omega), digits, List.nil_append]
  · have digits := setDigits_eq v.natAbs (buffer.put '-')
    rw [Int.ofNat_natAbs_of_nonpos (by omega), neg_neg] at digits
    rw [if_neg nonneg, if_pos (by omega), digits, Buffer.put_eq_putAll,
      Buffer.putAll_putAll]

theorem imageInteger_eq (v : ℤ) (s : ℤ → Char) :
    imageInteger v s =
      Buffer.putAll { text := s, last := 0 }
        ((if 0 ≤ v then [' '] else []) ++ decimalNumeral v) := by
  rw [imageInteger, setImageInteger_eq]
  by_cases nonneg : 0 ≤ v
  · rw [if_pos nonneg, if_pos nonneg, ← Buffer.putAll_putAll]
    rfl
  · rw [if_neg nonneg, if_neg nonneg, List.nil_append]

/-- Different integers have different numerals. -/
theorem decimalNumeral_injective : Function.Injective decimalNumeral := by
  intro first second same
  have digits : ∀ v : ℤ, '-' ∉ Nat.toDigits 10 v.natAbs := by
    intro v member
    have digit := Nat.isDigit_of_mem_toDigits (by decide) (by decide) member
    cases digit
  have negative : ∀ v, '-' ∈ decimalNumeral v ↔ v < 0 := by
    intro v
    rw [decimalNumeral, List.mem_append, or_iff_left (digits v)]
    split <;> simp_all
  have sign : first < 0 ↔ second < 0 := by
    rw [← negative first, same, negative second]
  have natAbs : first.natAbs = second.natAbs := by
    rw [decimalNumeral, decimalNumeral] at same
    have digitsEq : Nat.toDigits 10 first.natAbs =
        Nat.toDigits 10 second.natAbs := by
      by_cases below : first < 0
      · rw [if_pos below, if_pos (sign.mp below)] at same
        exact List.append_cancel_left same
      · rw [if_neg below, if_neg (sign.not.mp below)] at same
        exact same
    rw [← Nat.ofDigitChars_ten_toDigits (n := first.natAbs), digitsEq,
      Nat.ofDigitChars_ten_toDigits]
  omega

end IntegerImages

end AdacHybridMsp430
