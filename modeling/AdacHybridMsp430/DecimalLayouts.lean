import AdacHybridMsp430.DecimalRounding

/-!
# Layouts of decimal numerals

Every layout of `Set_Decimal_Digits` writes the value of the rounded digits,
with the promised number of digits after the point.
-/

namespace AdacHybridMsp430

namespace DecimalImages

open TextBuffers DecimalNumerals

/-- A text is a numeral without an exponent, after as many blanks as the given
field before the point has room for. -/
def FixedText (negative : Bool) (value : ℚ) (fore places : ℕ)
    (text : List Char) : Prop :=
  ∃ (blanks : ℕ) (numeral : Fixed),
    text = List.replicate blanks ' ' ++ numeral.text ∧
      numeral.negative = negative ∧
      blanks = fore - (numeral.sign ++ numeral.whole).length ∧
      numeral.fraction.length = places ∧
      numeral.value = value

/-- A text is a numeral with an exponent, after blanks that fill at least the
given field before the point. -/
def ScientificText (negative : Bool) (value : ℚ) (fore places exp : ℕ)
    (text : List Char) : Prop :=
  ∃ (blanks : ℕ) (numeral : Scientific),
    text = List.replicate blanks ' ' ++ numeral.text ∧
      numeral.mantissa.negative = negative ∧
      fore ≤ blanks +
        (numeral.mantissa.sign ++ numeral.mantissa.whole).length ∧
      numeral.mantissa.whole.length = 1 ∧
      (value ≠ 0 → numeral.mantissa.whole ≠ ['0']) ∧
      numeral.mantissa.fraction.length = places ∧
      exp ≤ numeral.exponentDigits.length + 1 ∧
      (value = 0 → numeral.exponentNegative = false ∧ numeral.exponent = 0) ∧
      numeral.value = value

theorem max_one_natCast (aft : ℕ) :
    max 1 (aft : ℤ) = ((max 1 aft : ℕ) : ℤ) := by
  push_cast
  rfl

section Fixed

variable {minus : Bool} {state : State} {fore places : ℕ} {s : Buffer}

/-- A call without an exponent chooses its layout after the rounding. -/
theorem setDecimalDigits_fixed (digs : ℤ → Char) (nDigs : ℤ) (s : Buffer)
    (scale : ℤ) (fore aft : ℕ) :
    (setDecimalDigits digs nDigs s scale fore aft 0).2 =
      setFixed (digs 1 = '-') (fixedState digs nDigs scale (max 1 aft : ℕ))
        fore (max 1 aft : ℕ) s := by
  rw [setDecimalDigits, if_neg (lt_irrefl 0), max_one_natCast]
  rfl

def signText (negative : Bool) : List Char :=
  if negative then ['-'] else []

/-- Blanks and a sign in front of the given number of digits. -/
def blanksAndSign (minus : Bool) (fore : ℤ) (count : ℕ) : List Char :=
  List.replicate (fore - ((signText minus).length + count)).toNat ' ' ++
    signText minus

theorem setBlanksAndSign_eq (minus : Bool) (fore n : ℤ) (count : ℕ)
    (fits : n = fore - count) (s : Buffer) :
    setBlanksAndSign minus n s = s.putAll (blanksAndSign minus fore count) := by
  subst fits
  rw [setBlanksAndSign, blanksAndSign, signText]
  cases minus with
  | false =>
      rw [if_neg (by simp), if_neg (by simp), List.append_nil]
      simp
  | true =>
      rw [if_pos rfl, if_pos rfl, Buffer.put_eq_putAll, Buffer.putAll_putAll]
      congr 3
      simp
      omega

theorem setDigits_slice (digs : ℤ → Char) {first last : ℤ} (count : ℕ)
    (length : last + 1 = first + count) (s : Buffer) :
    setDigits digs first last s = s.putAll (Buffer.slice digs first count) := by
  rw [setDigits, length, add_sub_cancel_left, Int.toNat_natCast]

/-- The part of a call that follows the rounding writes the digits. -/
def WritesFixed (minus : Bool) (state : State) (fore places : ℕ)
    (s : Buffer) : Prop :=
  ∃ text, setFixed minus state fore places s = s.putAll text ∧
    FixedText minus (signFactor minus * state.value) fore places text

/-- A text with the digits of the value. -/
theorem writesFixed_of_digits {whole fraction : List Char}
    (written : setFixed minus state fore places s = s.putAll
      (blanksAndSign minus fore whole.length ++ whole ++ '.' :: fraction))
    (nonempty : whole ≠ []) (areDigits : AreDigits (whole ++ fraction))
    (length : fraction.length = places)
    (value : (digitsValue (whole ++ fraction) : ℚ) * 10 ^ (-(places : ℤ)) =
      state.value) :
    WritesFixed minus state fore places s := by
  refine ⟨_, written,
    (fore - ((signText minus).length + whole.length) : ℤ).toNat,
    ⟨minus, whole, fraction, nonempty, areDigits⟩, ?_, rfl, ?_, length, ?_⟩
  · rw [blanksAndSign, Fixed.text, Fixed.sign, signText]
    simp
  · rw [Fixed.sign, List.length_append]
    dsimp only
    rw [← signText]
    omega
  · rw [Fixed.value, length, value]

/-- Zeros at the end move the point. -/
theorem value_of_shift {digits : List Char} (shift : ℕ)
    (place : (shift : ℤ) = places + state.digitsBeforePoint - state.nd)
    (number : digitsValue digits = digitsValue state.digits * 10 ^ shift) :
    (digitsValue digits : ℚ) * 10 ^ (-(places : ℤ)) = state.value := by
  rw [number, State.value]
  push_cast
  rw [mul_assoc, ← zpow_natCast, ← zpow_add₀ (by norm_num), place]
  congr 2
  omega

theorem setDigits_all (consistent : state.Consistent) (s : Buffer) :
    setDigits state.digs state.fd state.ld s = s.putAll state.digits := by
  have positive := consistent.positive
  have last := consistent.last
  exact setDigits_slice _ _ (by omega) s

/-- No digits before the point: zeros lead to the first digit. -/
theorem writesFixed_leading (consistent : state.Consistent)
    (point : state.nd - state.digitsBeforePoint ≤ places)
    (small : state.digitsBeforePoint ≤ 0) :
    WritesFixed minus state fore places s := by
  have positive := consistent.positive
  have length := length_digits consistent
  have leading : min (places : ℤ) (-state.digitsBeforePoint) =
      -state.digitsBeforePoint :=
    min_eq_right (by omega)
  have written : setFixed minus state fore places s = s.putAll
      (blanksAndSign minus fore ['0'].length ++ ['0'] ++
        '.' :: (List.replicate (-state.digitsBeforePoint).toNat '0' ++
          (state.digits ++ List.replicate
            (places - -state.digitsBeforePoint - state.nd).toNat '0'))) := by
    rw [setFixed, if_pos small, leading, if_neg (by omega),
      setDigits_all consistent,
      setBlanksAndSign_eq minus fore (fore - 1) ['0'].length (by simp)]
    simp [setZeroes]
  apply writesFixed_of_digits written (List.cons_ne_nil _ _)
  · exact areDigits_append.mpr ⟨areDigits_zeros 1, areDigits_append.mpr
      ⟨areDigits_zeros _, areDigits_append.mpr
        ⟨consistent.areDigits, areDigits_zeros _⟩⟩⟩
  · simp only [List.length_append, List.length_replicate]
    omega
  · apply value_of_shift (places - -state.digitsBeforePoint - state.nd).toNat
    · omega
    · rw [show ['0'] = List.replicate 1 '0' from rfl, digitsValue_zeros_append,
        digitsValue_zeros_append, digitsValue_append_zeros]

/-- A zero in front of the point, and zeros behind it. -/
theorem writesFixed_zero
    (written : setFixed minus state fore places s = s.putAll
      (blanksAndSign minus fore ['0'].length ++ ['0'] ++
        '.' :: List.replicate places '0'))
    (zero : digitsValue state.digits = 0) :
    WritesFixed minus state fore places s := by
  apply writesFixed_of_digits written (List.cons_ne_nil _ _)
  · exact areDigits_append.mpr ⟨areDigits_zeros 1, areDigits_zeros _⟩
  · exact List.length_replicate
  · rw [State.value, zero, digitsValue_append_zeros,
      show digitsValue ['0'] = 0 from rfl]
    simp

/-- All digits are dropped. -/
theorem writesFixed_dropped (zero : digitsValue state.digits = 0)
    (single : state.nd = 1)
    (many : (places : ℤ) ≤ -state.digitsBeforePoint) :
    WritesFixed minus state fore places s := by
  have leading : min (places : ℤ) (-state.digitsBeforePoint) = places :=
    min_eq_left many
  apply writesFixed_zero _ zero
  rw [setFixed, if_pos (by omega), leading, if_pos (by omega),
    setDigits_slice _ 0 (by push_cast; omega),
    setBlanksAndSign_eq minus fore (fore - 1) ['0'].length (by simp)]
  simp [setZeroes, Buffer.slice]

/-- Fewer digits than are needed before the point. -/
theorem writesFixed_trailing (consistent : state.Consistent)
    (large : state.nd < state.digitsBeforePoint) :
    WritesFixed minus state fore places s := by
  have positive := consistent.positive
  have length := length_digits consistent
  by_cases zero : state.nd = 1 ∧ state.digs state.fd = '0'
  · have digits : state.digits = ['0'] := by
      rw [State.digits, zero.1]
      simp [Buffer.slice, zero.2]
    apply writesFixed_zero _ (by rw [digits]; rfl)
    rw [setFixed, if_neg (by omega), if_pos large, if_pos zero,
      setBlanksAndSign_eq minus fore (fore - 1) ['0'].length (by simp)]
    simp [setZeroes]
  · obtain ⟨fill, isFill⟩ : ∃ fill : ℕ,
        state.digitsBeforePoint - state.nd = fill :=
      ⟨(state.digitsBeforePoint - state.nd).toNat, by omega⟩
    have count : ((state.digits ++ List.replicate fill '0').length : ℤ) =
        state.digitsBeforePoint := by
      rw [List.length_append, List.length_replicate]
      omega
    have written : setFixed minus state fore places s = s.putAll
        (blanksAndSign minus fore
            (state.digits ++ List.replicate fill '0').length ++
          (state.digits ++ List.replicate fill '0') ++
          '.' :: List.replicate places '0') := by
      rw [setFixed, if_neg (by omega), if_pos large, if_neg zero,
        setDigits_all consistent,
        setBlanksAndSign_eq minus fore _
          (state.digits ++ List.replicate fill '0').length (by rw [count]),
        isFill]
      simp [setZeroes]
    apply writesFixed_of_digits written
    · intro empty
      rw [empty] at count
      simp only [List.length_nil] at count
      omega
    · exact areDigits_append.mpr ⟨areDigits_append.mpr
        ⟨consistent.areDigits, areDigits_zeros _⟩, areDigits_zeros _⟩
    · exact List.length_replicate
    · apply value_of_shift (fill + places)
      · omega
      · rw [digitsValue_append_zeros, digitsValue_append_zeros, pow_add,
          mul_assoc]

/-- All the digits before the point are there. -/
theorem writesFixed_full (consistent : state.Consistent)
    (point : state.nd - state.digitsBeforePoint ≤ places)
    (large : 0 < state.digitsBeforePoint)
    (enough : state.digitsBeforePoint ≤ state.nd) :
    WritesFixed minus state fore places s := by
  obtain ⟨before, isBefore⟩ : ∃ before : ℕ,
      state.digitsBeforePoint = before :=
    ⟨state.digitsBeforePoint.toNat, by omega⟩
  obtain ⟨after, isAfter⟩ : ∃ after : ℕ, state.nd = before + after :=
    ⟨(state.nd - before).toNat, by omega⟩
  have last := consistent.last
  have split : state.digits =
      Buffer.slice state.digs state.fd before ++
        Buffer.slice state.digs (state.fd + before) after := by
    rw [← Buffer.slice_add, State.digits, isAfter]
    rfl
  have whole : (Buffer.slice state.digs state.fd before).length = before :=
    Buffer.length_slice _ _ _
  have rest : ((places : ℤ) - (state.nd - before)).toNat = places - after := by
    omega
  have written : setFixed minus state fore places s = s.putAll
      (blanksAndSign minus fore
          (Buffer.slice state.digs state.fd before).length ++
        Buffer.slice state.digs state.fd before ++
        '.' :: (Buffer.slice state.digs (state.fd + before) after ++
          List.replicate (places - after) '0')) := by
    rw [setFixed, if_neg (by omega), if_neg (by omega), isBefore]
    dsimp only
    rw [setDigits_slice state.digs after (by omega),
      setDigits_slice state.digs before (by omega),
      setBlanksAndSign_eq minus fore _ before rfl, whole]
    simp [setZeroes, rest]
  apply writesFixed_of_digits written
  · intro empty
    rw [empty] at whole
    simp only [List.length_nil] at whole
    omega
  · rw [← List.append_assoc, ← split]
    exact areDigits_append.mpr ⟨consistent.areDigits, areDigits_zeros _⟩
  · rw [List.length_append, Buffer.length_slice, List.length_replicate]
    omega
  · apply value_of_shift (places - after)
    · omega
    · rw [← List.append_assoc, ← split, digitsValue_append_zeros]

/-- Every layout writes the digits. -/
theorem writesFixed (consistent : state.Consistent)
    (point : state.nd - state.digitsBeforePoint ≤ places ∨
      digitsValue state.digits = 0 ∧ state.nd = 1 ∧
        (places : ℤ) ≤ -state.digitsBeforePoint) :
    WritesFixed minus state fore places s := by
  rcases point with point | ⟨zero, single, many⟩
  · rcases le_or_gt state.digitsBeforePoint 0 with small | large
    · exact writesFixed_leading consistent point small
    · rcases lt_or_ge state.nd state.digitsBeforePoint with fewer | enough
      · exact writesFixed_trailing consistent fewer
      · exact writesFixed_full consistent point large enough
  · exact writesFixed_dropped zero single many

end Fixed

section Scientific

variable {minus : Bool} {state : State} {fore places exp : ℕ} {s : Buffer}

/-- The digits after the first one, as many as there are places. -/
structure Fraction (state : State) (places : ℕ) (fraction : List Char) :
    Prop where
  length : fraction.length = places
  areDigits : AreDigits (state.digs state.fd :: fraction)
  value : (digitsValue (state.digs state.fd :: fraction) : ℚ) =
    digitsValue state.digits * 10 ^ ((places : ℤ) + 1 - state.nd)
  written : ∀ s : Buffer,
    (if (places : ℤ) ≤ state.nd - 1 then
      setDigits state.digs (state.fd + 1) (state.fd + 1 + places - 1) s
    else
      setZeroes (places - (state.nd - 1))
        (setDigits state.digs (state.fd + 1) state.ld s)) =
      s.putAll fraction

theorem digits_eq_cons {rest : ℕ} (count : state.nd = rest + 1) :
    state.digits = state.digs state.fd ::
      Buffer.slice state.digs (state.fd + 1) rest := by
  rw [← Buffer.slice_cons, State.digits, count]
  rfl

/-- Missing digits are zeros. -/
theorem fraction_of_lt (consistent : state.Consistent)
    (few : state.nd < places + 1) :
    ∃ fraction, Fraction state places fraction := by
  have last := consistent.last
  obtain ⟨rest, count⟩ : ∃ rest : ℕ, state.nd = rest + 1 :=
    ⟨(state.nd - 1).toNat, by have := consistent.positive; omega⟩
  have digits := digits_eq_cons count
  refine ⟨Buffer.slice state.digs (state.fd + 1) rest ++
    List.replicate (places - rest) '0', ?_, ?_, ?_, ?_⟩
  · rw [List.length_append, Buffer.length_slice, List.length_replicate]
    omega
  · rw [← List.cons_append, ← digits]
    exact areDigits_append.mpr ⟨consistent.areDigits, areDigits_zeros _⟩
  · rw [← List.cons_append, ← digits, digitsValue_append_zeros]
    push_cast
    rw [← zpow_natCast]
    congr 2
    omega
  · intro s
    rw [if_neg (by omega), setDigits_slice _ rest (by omega), setZeroes,
      Buffer.putAll_putAll]
    congr 3
    omega

/-- As many digits as places after the first one. -/
theorem fraction_of_eq (consistent : state.Consistent)
    (enough : state.nd = places + 1) :
    ∃ fraction, Fraction state places fraction := by
  have digits := digits_eq_cons enough
  refine ⟨Buffer.slice state.digs (state.fd + 1) places,
    Buffer.length_slice _ _ _, ?_, ?_, ?_⟩
  · rw [← digits]
    exact consistent.areDigits
  · rw [← digits, enough, sub_self, zpow_zero, mul_one]
  · intro s
    rw [if_pos (by omega), setDigits_slice _ places (by omega)]

/-- The carry leaves a zero that is not written. -/
theorem fraction_of_carry (consistent : state.Consistent)
    (more : state.nd = places + 2) (ten : 10 ∣ digitsValue state.digits) :
    ∃ fraction, Fraction state places fraction := by
  have digits : state.digits =
      (state.digs state.fd ::
        Buffer.slice state.digs (state.fd + 1) places) ++
        [state.digs (state.fd + 1 + places)] := by
    rw [List.cons_append, ← Buffer.slice_succ]
    exact digits_eq_cons (by push_cast; omega)
  have areDigits := consistent.areDigits
  rw [digits] at areDigits
  obtain ⟨front, back⟩ := areDigits_append.mp areDigits
  obtain ⟨d, digit, isDigit⟩ := exists_digitChar (back _ List.mem_cons_self)
  have number : digitsValue state.digits =
      digitsValue (state.digs state.fd ::
        Buffer.slice state.digs (state.fd + 1) places) * 10 := by
    have value := congrArg digitsValue digits
    rw [isDigit, digitsValue_append, digitsValue_digitChar digit,
      List.length_singleton, pow_one] at value
    omega
  refine ⟨Buffer.slice state.digs (state.fd + 1) places,
    Buffer.length_slice _ _ _, front, ?_, ?_⟩
  · rw [number, more]
    have exponent : (places : ℤ) + 1 - (places + 2) = -1 := by
      omega
    rw [exponent]
    push_cast
    rw [mul_assoc]
    norm_num
  · intro s
    rw [if_pos (by omega), setDigits_slice _ places (by omega)]

theorem exists_fraction (consistent : state.Consistent)
    (length : state.nd < places + 2 ∨
      state.nd = places + 2 ∧ 10 ∣ digitsValue state.digits) :
    ∃ fraction, Fraction state places fraction := by
  rcases length with fewer | ⟨more, ten⟩
  · rcases lt_or_eq_of_le (show state.nd ≤ places + 1 by omega) with few | enough
    · exact fraction_of_lt consistent few
    · exact fraction_of_eq consistent enough
  · exact fraction_of_carry consistent more ten

/-- The exponent of the numeral. -/
def State.expon (state : State) : ℤ :=
  if state.zero then 0 else state.digitsBeforePoint - 1

/-- The digits of the exponent, with leading zeros. -/
def exponentDigits (expon : ℤ) (exp : ℕ) : List Char :=
  List.replicate (exp - 1 - (Nat.toDigits 10 expon.natAbs).length) '0' ++
    Nat.toDigits 10 expon.natAbs

/-- The image of the exponent replaces the first digits of `Digs`. -/
def exponentImage (state : State) : Buffer :=
  Buffer.putAll { text := state.digs, last := 0 }
    (Nat.toDigits 10 state.expon.natAbs)

theorem setScientific_eq {fraction : List Char}
    (isFraction : Fraction state places fraction) (exp : ℕ) (s : Buffer) :
    setScientific state places exp s =
      ((exponentImage state).text, s.putAll
        (state.digs state.fd :: '.' :: fraction ++
          'E' :: (if state.expon < 0 then '-' else '+') ::
            exponentDigits state.expon exp)) := by
  have image : IntegerImages.setImageInteger
      (if 0 ≤ state.expon then state.expon else -state.expon)
      { text := state.digs, last := 0 } = exponentImage state := by
    have natAbs : (if 0 ≤ state.expon then state.expon else -state.expon) =
        (state.expon.natAbs : ℤ) := by
      split <;> omega
    rw [IntegerImages.setImageInteger_eq, natAbs,
      IntegerImages.decimalNumeral, if_neg (by omega), List.nil_append,
      Int.natAbs_natCast, exponentImage]
  have last : (exponentImage state).last =
      (Nat.toDigits 10 state.expon.natAbs).length := by
    rw [exponentImage, Buffer.last_putAll, zero_add]
  have digits : ∀ s : Buffer,
      setDigits (exponentImage state).text 1 (exponentImage state).last s =
        s.putAll (Nat.toDigits 10 state.expon.natAbs) := by
    intro s
    rw [setDigits_slice _ (Nat.toDigits 10 state.expon.natAbs).length
      (by rw [last]; omega)]
    exact congrArg s.putAll (Buffer.slice_putAll _ _)
  have sign : (if 0 ≤ state.expon then '+' else '-') =
      if state.expon < 0 then '-' else '+' := by
    split <;> split <;> first | rfl | omega
  have zeros : ((exp : ℤ) - (exponentImage state).last - 1).toNat =
      exp - 1 - (Nat.toDigits 10 state.expon.natAbs).length := by
    rw [last]
    omega
  rw [setScientific, ← State.expon]
  simp only [image, isFraction.written, digits, sign]
  rw [setZeroes, zeros]
  simp [exponentDigits]

theorem digitsValue_exponentDigits (expon : ℤ) (exp : ℕ) :
    digitsValue (exponentDigits expon exp) = expon.natAbs := by
  rw [exponentDigits, digitsValue_zeros_append]
  exact Nat.ofDigitChars_ten_toDigits

/-- The flag for zero is right, and other values have no leading zero. -/
structure State.Normal (state : State) : Prop where
  zero : state.zero = true → digitsValue state.digits = 0
  leading : state.zero = false →
    10 ^ (state.nd.toNat - 1) ≤ digitsValue state.digits

theorem digits_first_ne_zero (consistent : state.Consistent)
    (leading : 10 ^ (state.nd.toNat - 1) ≤ digitsValue state.digits) :
    state.digs state.fd ≠ '0' := by
  intro isZero
  obtain ⟨rest, count⟩ : ∃ rest : ℕ, state.nd = rest + 1 :=
    ⟨(state.nd - 1).toNat, by have := consistent.positive; omega⟩
  have areDigits := consistent.areDigits
  have zeros : ['0'] = List.replicate 1 '0' :=
    rfl
  rw [digits_eq_cons count, isZero, ← List.singleton_append, zeros] at areDigits
  have below := digitsValue_lt (areDigits_append.mp areDigits).2
  rw [digits_eq_cons count, isZero, ← List.singleton_append, zeros,
    digitsValue_zeros_append, count] at leading
  rw [Buffer.length_slice] at below
  have exponent : ((rest : ℤ) + 1).toNat - 1 = rest := by
    omega
  rw [exponent] at leading
  omega

/-- The numeral that is written. -/
def Fraction.numeral {fraction : List Char}
    (isFraction : Fraction state places fraction) (minus : Bool) (exp : ℕ) :
    Scientific where
  mantissa :=
    { negative := minus
      whole := [state.digs state.fd]
      fraction := fraction
      nonempty := List.cons_ne_nil _ _
      areDigits := isFraction.areDigits }
  exponentNegative := decide (state.expon < 0)
  exponentDigits := exponentDigits state.expon exp
  nonempty := by simp [exponentDigits, Nat.toDigits_ne_nil]
  areDigits := areDigits_append.mpr ⟨areDigits_zeros _, areDigits_toDigits _⟩

theorem Fraction.exponent_numeral {fraction : List Char}
    (isFraction : Fraction state places fraction) (minus : Bool) (exp : ℕ) :
    (isFraction.numeral minus exp).exponent = state.expon := by
  rw [Scientific.exponent, Fraction.numeral]
  simp only [digitsValue_exponentDigits, decide_eq_true_eq]
  split <;> omega

theorem Fraction.value_numeral {fraction : List Char}
    (isFraction : Fraction state places fraction) (minus : Bool) (exp : ℕ)
    (normal : state.Normal) :
    (isFraction.numeral minus exp).value =
      signFactor minus * state.value := by
  rw [Scientific.value, isFraction.exponent_numeral, Fixed.value,
    Fraction.numeral]
  simp only [List.singleton_append, isFraction.value, isFraction.length]
  rw [mul_assoc]
  congr 1
  cases isZero : state.zero with
  | true => simp [State.value, normal.zero isZero]
  | false =>
      rw [State.expon, isZero, if_neg (by simp), State.value, mul_assoc,
        mul_assoc, ← zpow_add₀ (by norm_num), ← zpow_add₀ (by norm_num)]
      congr 2
      omega

/-- The value is zero just if the flag is set. -/
theorem State.Normal.value_eq_zero_iff (normal : state.Normal) (minus : Bool) :
    signFactor minus * state.value = 0 ↔ state.zero = true := by
  have power : (10 : ℚ) ^ (state.digitsBeforePoint - state.nd) ≠ 0 :=
    zpow_ne_zero _ (by norm_num)
  have factor : signFactor minus ≠ 0 := by
    cases minus <;> simp [signFactor]
  rw [mul_eq_zero, or_iff_right factor, State.value, mul_eq_zero,
    or_iff_left power, Nat.cast_eq_zero]
  constructor
  · intro none
    by_contra nonzero
    have leading := normal.leading (by simpa using nonzero)
    have positive : 0 < 10 ^ (state.nd.toNat - 1) := by
      positivity
    omega
  · exact normal.zero

/-- What is written with an exponent has the value of the digits. -/
theorem scientificText (consistent : state.Consistent) (normal : state.Normal)
    {fraction : List Char} (isFraction : Fraction state places fraction)
    (minus : Bool) (fore exp : ℕ) :
    ScientificText minus (signFactor minus * state.value) fore places exp
      (blanksAndSign minus fore 1 ++
        (state.digs state.fd :: '.' :: fraction ++
          'E' :: (if state.expon < 0 then '-' else '+') ::
            exponentDigits state.expon exp)) := by
  refine ⟨(fore - ((signText minus).length + 1) : ℤ).toNat,
    isFraction.numeral minus exp, ?_, rfl, ?_, rfl, ?_, isFraction.length, ?_,
    ?_, isFraction.value_numeral minus exp normal⟩
  · rw [blanksAndSign, Scientific.text, Fixed.text, Fixed.sign, signText,
      Fraction.numeral]
    simp
  · rw [Fixed.sign, List.length_append, Fraction.numeral]
    dsimp only
    rw [← signText, List.length_singleton]
    omega
  · intro nonzero isZero
    have flag : state.zero = false := by
      rw [Ne, normal.value_eq_zero_iff] at nonzero
      simpa using nonzero
    exact digits_first_ne_zero consistent (normal.leading flag)
      (List.singleton_inj.mp isZero)
  · rw [Fraction.numeral]
    dsimp only
    rw [exponentDigits, List.length_append, List.length_replicate]
    omega
  · intro none
    have flag := (normal.value_eq_zero_iff minus).mp none
    have expon : state.expon = 0 := by
      rw [State.expon, if_pos flag]
    rw [isFraction.exponent_numeral, expon]
    refine ⟨?_, rfl⟩
    rw [Fraction.numeral]
    dsimp only
    rw [expon]
    rfl

end Scientific

end DecimalImages

end AdacHybridMsp430
