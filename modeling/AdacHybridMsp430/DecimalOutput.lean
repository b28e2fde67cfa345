import AdacHybridMsp430.DecimalLayouts

/-!
# Correctly rounded decimal output

`Set_Decimal_Digits` appends a numeral that denotes the scaled integer, rounded
half away from zero to the place of its last digit.
-/

namespace AdacHybridMsp430

namespace DecimalImages

open TextBuffers DecimalNumerals

/-- `Digs` holds a sign or a blank and the digits of an integer. -/
structure IsImage (digs : ℤ → Char) (nDigs v : ℤ) : Prop where
  sign : digs 1 = if v < 0 then '-' else ' '
  length : nDigs = (Nat.toDigits 10 v.natAbs).length + 1
  digits : Buffer.slice digs 2 (Nat.toDigits 10 v.natAbs).length =
    Nat.toDigits 10 v.natAbs

/-- The number that is written. -/
def exactValue (v scale : ℤ) : ℚ :=
  v * 10 ^ (-scale)

/-- What a call of `Set_Decimal_Digits` has to do. -/
structure SetsNumeral (digs : ℤ → Char) (nDigs v : ℤ) (s : Buffer) (scale : ℤ)
    (fore aft exp : ℕ) : Prop where
  numeral : ∃ text,
    Buffer.Appended s (setDecimalDigits digs nDigs s scale fore aft exp).2 text ∧
      if 0 < exp then
        ScientificText (decide (v < 0))
          (roundTo ((max 1 aft : ℕ) - leadingPlace (exactValue v scale))
            (exactValue v scale)) fore (max 1 aft) exp text
      else
        FixedText (decide (v < 0))
          (roundTo (max 1 aft : ℕ) (exactValue v scale)) fore (max 1 aft) text
  digsWithin : ∀ i, i < 1 ∨ nDigs < i →
    (setDecimalDigits digs nDigs s scale fore aft exp).1 i = digs i

section Output

variable {digs : ℤ → Char} {nDigs v : ℤ} (scale : ℤ)

theorem digits_declare (isImage : IsImage digs nDigs v) :
    (declare digs nDigs scale).digits = Nat.toDigits 10 v.natAbs := by
  have count : (nDigs - 1).toNat = (Nat.toDigits 10 v.natAbs).length := by
    have length := isImage.length
    omega
  rw [State.digits]
  simp only [declare]
  rw [count, isImage.digits]

theorem digitsValue_declare (isImage : IsImage digs nDigs v) :
    digitsValue (declare digs nDigs scale).digits = v.natAbs := by
  rw [digits_declare scale isImage]
  exact Nat.ofDigitChars_ten_toDigits

theorem consistent_declare (isImage : IsImage digs nDigs v) :
    (declare digs nDigs scale).Consistent where
  positive := by
    have positive : 0 < (Nat.toDigits 10 v.natAbs).length :=
      Nat.length_toDigits_pos
    have length := isImage.length
    simp only [declare]
    omega
  last := by
    simp only [declare]
    omega
  areDigits := by
    rw [digits_declare scale isImage]
    exact areDigits_toDigits _

theorem value_declare (isImage : IsImage digs nDigs v) :
    signFactor (decide (v < 0)) * (declare digs nDigs scale).value =
      exactValue v scale := by
  rw [State.value, digitsValue_declare scale isImage, exactValue,
    intCast_eq_signFactor v, mul_assoc]
  congr 3
  simp only [declare]
  omega

/-- A number other than zero has as many digits as its numeral. -/
theorem leading_declare (isImage : IsImage digs nDigs v) (nonzero : v ≠ 0) :
    10 ^ ((declare digs nDigs scale).nd.toNat - 1) ≤ v.natAbs := by
  have count : (declare digs nDigs scale).nd.toNat =
      (Nat.toDigits 10 v.natAbs).length := by
    have length := isImage.length
    simp only [declare]
    omega
  rw [count]
  by_contra below
  rcases Nat.eq_zero_or_pos ((Nat.toDigits 10 v.natAbs).length - 1)
    with single | many
  · rw [single] at below
    omega
  · have shorter :=
      (Nat.length_toDigits_le_iff (by decide) many).mpr (not_le.mp below)
    omega

theorem below_declare (isImage : IsImage digs nDigs v) :
    v.natAbs < 10 ^ (declare digs nDigs scale).nd.toNat := by
  have length := length_digits (consistent_declare scale isImage)
  have below := digitsValue_lt (consistent_declare scale isImage).areDigits
  rw [digitsValue_declare scale isImage] at below
  rwa [show (declare digs nDigs scale).nd.toNat =
    (declare digs nDigs scale).digits.length by omega]

theorem zero_declare (isImage : IsImage digs nDigs v) :
    (declare digs nDigs scale).zero = true ↔ v = 0 := by
  have flag : (declare digs nDigs scale).zero = true ↔ digs 2 = '0' := by
    simp [declare]
  rw [flag]
  constructor
  · intro isZero
    by_contra nonzero
    have leading := leading_declare scale isImage nonzero
    rw [← digitsValue_declare scale isImage] at leading
    exact digits_first_ne_zero (consistent_declare scale isImage) leading isZero
  · rintro rfl
    have digits := isImage.digits
    rw [Int.natAbs_zero, Nat.toDigits_zero, List.length_singleton,
      Buffer.slice_cons] at digits
    exact (List.cons.inj digits).1

theorem minus_eq (isImage : IsImage digs nDigs v) :
    decide (digs 1 = '-') = decide (v < 0) := by
  rw [isImage.sign]
  split <;> simp_all

/-- The numeral without an exponent. -/
theorem fixed_spec (isImage : IsImage digs nDigs v) (s : Buffer)
    (fore aft : ℕ) :
    ∃ text, (setDecimalDigits digs nDigs s scale fore aft 0).2 =
        s.putAll text ∧
      FixedText (decide (v < 0))
        (roundTo (max 1 aft : ℕ) (exactValue v scale)) fore (max 1 aft) text := by
  have rounded := rounded_round (show (declare digs nDigs scale).fd = 2 from rfl)
    (consistent_declare scale isImage) (nDigs - (scale - (max 1 aft : ℕ)))
  have point := rounded.point
  have value := rounded.value
  rw [keptPlaces_declare] at point value
  obtain ⟨text, written, isText⟩ : WritesFixed (decide (v < 0)) _ fore _ s :=
    writesFixed rounded.consistent point
  rw [value, ← roundTo_signFactor, value_declare scale isImage] at isText
  refine ⟨text, ?_, isText⟩
  rw [setDecimalDigits_fixed, minus_eq isImage]
  exact written

/-- The state after the rounding of a call with an exponent. -/
theorem normal_round (isImage : IsImage digs nDigs v) {n : ℤ} (digit : 2 ≤ n) :
    (round n (declare digs nDigs scale)).Normal := by
  have consistent := consistent_declare scale isImage
  have rounded := rounded_round rfl consistent n
  have within := roundedWithin_round rfl consistent digit
  constructor
  · intro isZero
    rw [within.zero, zero_declare scale isImage] at isZero
    have value := rounded.value
    have power : (10 : ℚ) ^
        ((round n (declare digs nDigs scale)).digitsBeforePoint -
          (round n (declare digs nDigs scale)).nd) ≠ 0 :=
      zpow_ne_zero _ (by norm_num)
    have none : (declare digs nDigs scale).value = 0 := by
      rw [State.value, digitsValue_declare scale isImage, isZero]
      simp
    rw [none, roundTo_zero, State.value, mul_eq_zero, or_iff_left power] at value
    exact_mod_cast value
  · intro flag
    apply within.leading
    rw [digitsValue_declare scale isImage]
    apply leading_declare scale isImage
    intro isZero
    rw [within.zero, (zero_declare scale isImage).mpr isZero] at flag
    cases flag

/-- The place of the first digit, from the digits before the point. -/
theorem leadingPlace_exactValue (isImage : IsImage digs nDigs v)
    (nonzero : v ≠ 0) :
    leadingPlace (exactValue v scale) =
      (declare digs nDigs scale).digitsBeforePoint - 1 := by
  have positive := (consistent_declare scale isImage).positive
  have lower := leading_declare scale isImage nonzero
  have upper := below_declare scale isImage
  have count : (declare digs nDigs scale).nd.toNat =
      (declare digs nDigs scale).nd.toNat - 1 + 1 := by
    omega
  rw [count] at upper
  rw [← value_declare scale isImage, State.value,
    digitsValue_declare scale isImage, leadingPlace_eq lower upper]
  omega

/-- The numeral with an exponent. -/
theorem scientific_spec (isImage : IsImage digs nDigs v) (s : Buffer)
    (fore aft : ℕ) {exp : ℕ} (positive : 0 < exp) :
    ∃ text, (setDecimalDigits digs nDigs s scale fore aft exp).2 =
        s.putAll text ∧
      ScientificText (decide (v < 0))
        (roundTo ((max 1 aft : ℕ) - leadingPlace (exactValue v scale))
          (exactValue v scale)) fore (max 1 aft) exp text := by
  have consistent := consistent_declare scale isImage
  have rounded := rounded_round rfl consistent ((max 1 aft : ℕ) + 2)
  have within := roundedWithin_round rfl consistent
    (show (2 : ℤ) ≤ (max 1 aft : ℕ) + 2 by omega)
  have normal := normal_round scale isImage
    (show (2 : ℤ) ≤ (max 1 aft : ℕ) + 2 by omega)
  obtain ⟨fraction, isFraction⟩ :=
    exists_fraction rounded.consistent within.length
  have isText := scientificText rounded.consistent normal isFraction
    (decide (v < 0)) fore exp
  have place : roundTo (keptPlaces ((max 1 aft : ℕ) + 2)
      (declare digs nDigs scale)) (exactValue v scale) =
        roundTo ((max 1 aft : ℕ) - leadingPlace (exactValue v scale))
          (exactValue v scale) := by
    by_cases nonzero : v = 0
    · have none : exactValue v scale = 0 := by
        rw [exactValue, nonzero, Int.cast_zero, zero_mul]
      rw [none, roundTo_zero, roundTo_zero]
    · rw [leadingPlace_exactValue scale isImage nonzero, keptPlaces]
      congr 1
      omega
  rw [rounded.value, ← roundTo_signFactor, value_declare scale isImage,
    place] at isText
  refine ⟨_, ?_, isText⟩
  rw [setDecimalDigits, if_pos positive, max_one_natCast]
  dsimp only
  rw [setScientific_eq isFraction, minus_eq isImage,
    setBlanksAndSign_eq _ fore (fore - 1) 1 (by simp),
    Buffer.putAll_putAll]

theorem add_lt_ten_pow {n : ℕ} (positive : 0 < n) : n + 18 < 10 ^ (n + 1) := by
  induction n, positive using Nat.le_induction with
  | base => decide
  | succ n _ ih =>
      rw [pow_succ]
      omega

/-- The digits of the exponent fit into `Digs`. -/
theorem length_expon_le (isImage : IsImage digs nDigs v)
    (lower : -18 ≤ scale) (upper : scale ≤ 18) {n : ℤ} (digit : 2 ≤ n) :
    ((Nat.toDigits 10
        (round n (declare digs nDigs scale)).expon.natAbs).length : ℤ) ≤
      nDigs := by
  have consistent := consistent_declare scale isImage
  have within := roundedWithin_round rfl consistent digit
  have positive : 1 ≤ nDigs - 1 :=
    consistent.positive
  have before : (declare digs nDigs scale).digitsBeforePoint =
      nDigs - 1 - scale :=
    rfl
  have bound : (round n (declare digs nDigs scale)).expon.natAbs ≤
      (nDigs - 1).toNat + 18 := by
    have exponent := within.exponent
    rw [before] at exponent
    rw [State.expon]
    split <;> omega
  have fits := (Nat.length_toDigits_le_iff (by decide : 1 < 10)
    (show 0 < (nDigs - 1).toNat + 1 by omega)).mpr
    (bound.trans_lt (add_lt_ten_pow (show 0 < (nDigs - 1).toNat by omega)))
  omega

/-- Nothing is written outside of `Digs`. -/
theorem digs_within (isImage : IsImage digs nDigs v) (lower : -18 ≤ scale)
    (upper : scale ≤ 18) (s : Buffer) (fore aft exp : ℕ) (i : ℤ)
    (outside : i < 1 ∨ nDigs < i) :
    (setDecimalDigits digs nDigs s scale fore aft exp).1 i = digs i := by
  have consistent := consistent_declare scale isImage
  have frame : ∀ n, (round n (declare digs nDigs scale)).digs i = digs i :=
    fun n => (rounded_round rfl consistent n).frame i outside
  rw [setDecimalDigits]
  by_cases positive : 0 < exp
  · have digit : (2 : ℤ) ≤ (max 1 aft : ℕ) + 2 := by
      omega
    obtain ⟨fraction, isFraction⟩ :=
      exists_fraction (rounded_round rfl consistent _).consistent
        (roundedWithin_round rfl consistent digit).length
    have fits := length_expon_le scale isImage lower upper digit
    rw [if_pos positive, max_one_natCast]
    dsimp only
    rw [setScientific_eq isFraction]
    exact (Buffer.text_putAll_of_outside _ _ (by dsimp only; omega)).trans
      (frame _)
  · rw [if_neg positive]
    exact frame _

end Output

/-- `Set_Decimal_Digits` appends the correctly rounded numeral, for every
string of digits, field and number of places. -/
theorem setsNumeral {digs : ℤ → Char} {nDigs v : ℤ}
    (isImage : IsImage digs nDigs v) {scale : ℤ} (lower : -18 ≤ scale)
    (upper : scale ≤ 18) (s : Buffer) (fore aft exp : ℕ) :
    SetsNumeral digs nDigs v s scale fore aft exp := by
  refine ⟨?_, digs_within scale isImage lower upper s fore aft exp⟩
  rcases Nat.eq_zero_or_pos exp with rfl | positive
  · obtain ⟨text, written, isText⟩ := fixed_spec scale isImage s fore aft
    refine ⟨text, ?_, isText⟩
    rw [written]
    exact Buffer.appended_putAll s text
  · obtain ⟨text, written, isText⟩ :=
      scientific_spec scale isImage s fore aft positive
    refine ⟨text, ?_, by rwa [if_pos positive]⟩
    rw [written]
    exact Buffer.appended_putAll s text

/-- The digits of 99.5, where the rounding carries into the sign position. -/
def carriedDigits (i : ℤ) : Char :=
  if i = 1 then '-' else if i = 4 then '5' else '9'

theorem setsNumeral_carriedDigits :
    SetsNumeral carriedDigits 4 (-995) { text := fun _ => ' ', last := 0 } 1
      2 1 2 :=
  setsNumeral
    { sign := by decide
      length := by decide
      digits := by decide }
    (by decide) (by decide) _ _ _ _

end DecimalImages

end AdacHybridMsp430
