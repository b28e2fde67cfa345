import AdacHybridMsp430.DecimalImages

/-!
# Rounding in place

What `Round` does to the digits: their value is rounded to the place of the
last position that is kept.
-/

namespace AdacHybridMsp430

namespace DecimalImages

open TextBuffers DecimalNumerals

namespace State

variable (state : State)

/-- The digits that remain to be processed. -/
def digits : List Char :=
  Buffer.slice state.digs state.fd state.nd.toNat

/-- The value of the digits. -/
def value : ℚ :=
  digitsValue state.digits * 10 ^ (state.digitsBeforePoint - state.nd)

/-- The state after rounding before the first digit. -/
def single (zero : Bool) (digit : Char) : State where
  digs := Function.update state.digs 1 digit
  zero := zero
  fd := 1
  ld := 1
  nd := 1
  digitsBeforePoint := state.digitsBeforePoint + 1

/-- The state after rounding to a number of digits. -/
def truncate (digs : ℤ → Char) (kept : ℕ) : State :=
  { state with digs := digs, ld := kept + 1, nd := kept }

/-- The state after a carry into the sign position. -/
def carryOut (digs : ℤ → Char) (kept : ℕ) : State where
  digs := Function.update digs 1 '1'
  zero := state.zero
  fd := 1
  ld := kept + 1
  nd := kept + 1
  digitsBeforePoint := state.digitsBeforePoint + 1

/-- The positions fit together. -/
structure Consistent : Prop where
  positive : 1 ≤ state.nd
  last : state.ld = state.fd + state.nd - 1
  areDigits : AreDigits state.digits

end State

/-- The number of digits that are kept after the point. -/
def keptPlaces (n : ℤ) (state : State) : ℤ :=
  n - 1 - state.digitsBeforePoint

/-- The state with which a call without an exponent chooses its layout. -/
def fixedState (digs : ℤ → Char) (nDigs scale digitsAfterPoint : ℤ) : State :=
  round (nDigs - (scale - digitsAfterPoint)) (declare digs nDigs scale)

/-- What rounding at position `n` guarantees. -/
structure Rounded (n : ℤ) (before after : State) : Prop where
  consistent : after.Consistent
  value : after.value = roundTo (keptPlaces n before) before.value
  point : after.nd - after.digitsBeforePoint ≤ keptPlaces n before ∨
    digitsValue after.digits = 0 ∧ after.nd = 1 ∧
      keptPlaces n before ≤ -after.digitsBeforePoint
  frame : ∀ i, i < 1 ∨ before.ld < i → after.digs i = before.digs i

/-- What rounding guarantees besides, if at least one digit is kept. -/
structure RoundedWithin (n : ℤ) (before after : State) : Prop where
  zero : after.zero = before.zero
  length : after.nd < n ∨ after.nd = n ∧ 10 ∣ digitsValue after.digits
  exponent : after.digitsBeforePoint = before.digitsBeforePoint ∨
    after.digitsBeforePoint = before.digitsBeforePoint + 1
  leading : 10 ^ (before.nd.toNat - 1) ≤ digitsValue before.digits →
    10 ^ (after.nd.toNat - 1) ≤ digitsValue after.digits

section Round

variable {n : ℤ} {state : State}

/-- The places that a call asks for are those that its rounding keeps. -/
theorem keptPlaces_declare (digs : ℤ → Char) (nDigs scale places : ℤ) :
    keptPlaces (nDigs - (scale - places)) (declare digs nDigs scale) =
      places := by
  simp only [keptPlaces, declare]
  omega

theorem round_of_le (beyond : state.ld ≤ n) : round n state = state :=
  if_pos beyond

/-- Rounding before the first digit leaves a single digit. -/
theorem round_before (first : state.fd = 2) (inside : n < state.ld)
    (before : n < 2) :
    ∃ zero, round n state = state.single zero
      (if n = 1 ∧ '5' ≤ state.digs 2 then '1' else '0') := by
  rw [round, if_neg (by omega), if_pos (by omega)]
  by_cases up : n = 1 ∧ '5' ≤ state.digs 2
  · refine ⟨state.zero, ?_⟩
    simp only [if_pos up, State.single]
  · refine ⟨true, ?_⟩
    simp only [if_neg up, State.single]

/-- Rounding at a digit depends on the next one. -/
theorem round_at {kept : ℕ} (first : state.fd = 2)
    (inside : (kept : ℤ) + 1 < state.ld) (positive : 1 ≤ kept) :
    round (kept + 1) state =
      if '5' ≤ state.digs (kept + 2) then
        if (carry state.digs kept).2 then
          state.carryOut (carry state.digs kept).1 kept
        else
          state.truncate (carry state.digs kept).1 kept
      else
        state.truncate state.digs kept := by
  have next : (kept : ℤ) + 1 + 1 = kept + 2 := by
    omega
  have count : ((kept : ℤ) + 1 - 1).toNat = kept := by
    omega
  rw [round, if_neg (by omega), if_neg (by omega)]
  simp only [next, count]
  by_cases up : '5' ≤ state.digs (kept + 2)
  · rw [if_pos up, if_pos up]
    cases carried : carry state.digs kept with
    | mk digs carries =>
        cases carries with
        | false => simp [State.truncate]
        | true => simp [State.carryOut]
  · rw [if_neg up, if_neg up]
    simp [State.truncate]

/-- The value of the digits that are kept, rounded by the next one. -/
def keptValue (state : State) (kept : ℕ) : ℕ :=
  digitsValue (Buffer.slice state.digs 2 kept) +
    if '5' ≤ state.digs (kept + 2) then 1 else 0

/-- Rounding at a digit keeps the digits up to it, or carries into the sign
position. -/
theorem round_cases {kept : ℕ} (first : state.fd = 2)
    (consistent : state.Consistent) (inside : (kept : ℤ) + 1 < state.ld)
    (positive : 1 ≤ kept) :
    ∃ digs, (∀ i : ℤ, i < 2 ∨ kept + 2 ≤ i → digs i = state.digs i) ∧
      AreDigits (Buffer.slice digs 2 kept) ∧
      ((round (kept + 1) state = state.truncate digs kept ∧
        digitsValue (Buffer.slice digs 2 kept) = keptValue state kept) ∨
      (round (kept + 1) state = state.carryOut digs kept ∧
        digitsValue (Buffer.slice digs 2 kept) = 0 ∧
        keptValue state kept = 10 ^ kept)) := by
  obtain ⟨-, last, areDigits⟩ := consistent
  have split : state.digits =
      Buffer.slice state.digs 2 kept ++
        Buffer.slice state.digs (2 + kept) (state.nd.toNat - kept) := by
    rw [← Buffer.slice_add, State.digits, first]
    congr 1
    omega
  rw [split] at areDigits
  have keptDigits := (areDigits_append.mp areDigits).1
  rw [round_at first inside positive]
  simp only [keptValue]
  by_cases up : '5' ≤ state.digs (kept + 2)
  · obtain ⟨digits, value⟩ := carry_spec state.digs kept keptDigits
    refine ⟨(carry state.digs kept).1,
      fun i outside => carry_of_outside _ _ outside, digits, ?_⟩
    rw [if_pos up, if_pos up]
    by_cases carries : (carry state.digs kept).2
    · have below := digitsValue_lt keptDigits
      rw [Buffer.length_slice] at below
      rw [if_pos carries] at value
      refine Or.inr ⟨if_pos carries, ?_, ?_⟩
      · omega
      · omega
    · rw [if_neg carries, Nat.add_zero] at value
      exact Or.inl ⟨if_neg carries, value⟩
  · refine ⟨state.digs, fun _ _ => rfl, keptDigits, Or.inl ?_⟩
    rw [if_neg up, if_neg up]
    exact ⟨rfl, rfl⟩

/-- The value is rounded if the number that the digits denote is. -/
theorem value_eq_roundTo {after : State}
    (place : after.digitsBeforePoint - after.nd = -keptPlaces n state)
    (rounded : roundHalfAway
        (digitsValue state.digits * 10 ^ (n - 1 - state.nd)) =
      digitsValue after.digits) :
    after.value = roundTo (keptPlaces n state) state.value := by
  have scaled : state.value * 10 ^ keptPlaces n state =
      digitsValue state.digits * 10 ^ (n - 1 - state.nd) := by
    rw [State.value, mul_assoc, ← zpow_add₀ (by norm_num), keptPlaces]
    congr 2
    omega
  rw [roundTo, scaled, rounded, State.value, place]
  push_cast
  rfl

/-- The digits from the second position, split at a digit. -/
theorem digits_split (first : state.fd = 2) {kept : ℕ}
    (inside : (kept : ℤ) < state.nd) :
    state.digits = Buffer.slice state.digs 2 kept ++
      state.digs (kept + 2) ::
        Buffer.slice state.digs (kept + 2 + 1) (state.nd.toNat - kept - 1) := by
  rw [← Buffer.slice_cons, Int.add_comm kept 2, ← Buffer.slice_add,
    State.digits, first]
  congr 1
  omega

/-- The kept digits are rounded by the next one. -/
theorem roundHalfAway_kept (first : state.fd = 2)
    (consistent : state.Consistent) {kept : ℕ}
    (inside : (kept : ℤ) < state.nd) :
    roundHalfAway (digitsValue state.digits * 10 ^ (kept - state.nd)) =
      keptValue state kept := by
  have areDigits := consistent.areDigits
  rw [digits_split first inside] at areDigits
  have rounded := roundHalfAway_digits areDigits
  rw [← digits_split first inside, Buffer.length_slice] at rounded
  have place : -(((state.nd.toNat - kept - 1 : ℕ) : ℤ) + 1) =
      kept - state.nd := by
    omega
  rw [place] at rounded
  rw [rounded, keptValue]
  push_cast
  rfl

theorem length_digits (consistent : state.Consistent) :
    (state.digits.length : ℤ) = state.nd := by
  have positive := consistent.positive
  rw [State.digits, Buffer.length_slice]
  omega

/-- `Round` leaves what it does not round. -/
theorem rounded_of_le (first : state.fd = 2) (consistent : state.Consistent)
    (beyond : state.ld ≤ n) : Rounded n state state := by
  have last := consistent.last
  refine ⟨consistent, ?_, Or.inl ?_, fun _ _ => rfl⟩
  · rw [roundTo]
    have scaled : state.value * 10 ^ keptPlaces n state =
        ((digitsValue state.digits *
          10 ^ (n - 1 - state.nd).toNat : ℕ) : ℚ) := by
      rw [State.value, mul_assoc, ← zpow_add₀ (by norm_num)]
      push_cast
      rw [← zpow_natCast]
      congr 2
      rw [keptPlaces]
      omega
    rw [scaled, roundHalfAway_natCast, Int.cast_natCast, ← scaled, mul_assoc,
      ← zpow_add₀ (by norm_num), add_neg_cancel, zpow_zero, mul_one]
  · rw [keptPlaces]
    omega

@[simp]
theorem digits_single (zero : Bool) (digit : Char) :
    (state.single zero digit).digits = [digit] := by
  simp [State.single, State.digits, Buffer.slice]

theorem digits_truncate (first : state.fd = 2) (digs : ℤ → Char) (kept : ℕ) :
    (state.truncate digs kept).digits = Buffer.slice digs 2 kept := by
  simp [State.truncate, State.digits, first]

@[simp]
theorem digits_carryOut (digs : ℤ → Char) (kept : ℕ) :
    (state.carryOut digs kept).digits = '1' :: Buffer.slice digs 2 kept := by
  have count : ((kept : ℤ) + 1).toNat = kept + 1 := by
    omega
  rw [State.digits]
  simp only [State.carryOut]
  rw [count, Buffer.slice_cons, Function.update_self,
    slice_update_of_outside _ _ (Or.inl (by decide))]
  rfl

theorem consistent_single {digit : Char} (isDigit : AreDigits [digit])
    (zero : Bool) : (state.single zero digit).Consistent :=
  ⟨le_rfl, rfl, by rwa [digits_single]⟩

theorem frame_single (consistent : state.Consistent) (first : state.fd = 2)
    (zero : Bool) (digit : Char) (i : ℤ) (outside : i < 1 ∨ state.ld < i) :
    (state.single zero digit).digs i = state.digs i := by
  have positive := consistent.positive
  have last := consistent.last
  exact Function.update_of_ne (by omega) _ _

/-- Rounding just before the first digit, which decides. -/
theorem rounded_first (first : state.fd = 2) (consistent : state.Consistent)
    (zero : Bool) :
    Rounded 1 state
      (state.single zero (if '5' ≤ state.digs 2 then '1' else '0')) := by
  have isDigit : AreDigits [if '5' ≤ state.digs 2 then '1' else '0'] := by
    split
    · exact areDigits_digitChar (show 1 < 10 by decide)
    · exact areDigits_zeros 1
  refine ⟨consistent_single isDigit zero, value_eq_roundTo ?_ ?_, Or.inl ?_,
    frame_single consistent first _ _⟩
  · simp only [keptPlaces, State.single]
    omega
  · have rounded := roundHalfAway_kept first consistent
      (show ((0 : ℕ) : ℤ) < state.nd from consistent.positive)
    have start : keptValue state 0 = if '5' ≤ state.digs 2 then 1 else 0 := by
      simp [keptValue, Buffer.slice]
    have exponent : (1 : ℤ) - 1 - state.nd = ((0 : ℕ) : ℤ) - state.nd := by
      omega
    rw [digits_single, exponent, rounded, start]
    split <;> rfl
  · simp only [keptPlaces, State.single]
    omega

/-- Rounding further before the first digit leaves a zero. -/
theorem rounded_zero (first : state.fd = 2) (consistent : state.Consistent)
    (before : n < 1) (zero : Bool) :
    Rounded n state (state.single zero '0') := by
  refine ⟨consistent_single (areDigits_zeros 1) zero, ?_,
    Or.inr ⟨?_, rfl, ?_⟩, frame_single consistent first _ _⟩
  · have many : (state.digits.length : ℤ) < state.nd + 1 - n := by
      rw [length_digits consistent]
      omega
    have rounded := roundHalfAway_digits_eq_zero consistent.areDigits many
    have scaled : state.value * 10 ^ keptPlaces n state =
        digitsValue state.digits * 10 ^ (-(state.nd + 1 - n)) := by
      rw [State.value, mul_assoc, ← zpow_add₀ (by norm_num), keptPlaces]
      congr 2
      omega
    rw [roundTo, scaled, rounded, State.value, digits_single]
    simp [digitsValue, Nat.ofDigitChars]
  · rw [digits_single]
    rfl
  · simp only [keptPlaces, State.single]
    omega

/-- Rounding before the first digit. -/
theorem rounded_before (first : state.fd = 2) (consistent : state.Consistent)
    (inside : n < state.ld) (before : n < 2) :
    Rounded n state (round n state) := by
  obtain ⟨zero, result⟩ := round_before first inside before
  rw [result]
  by_cases one : n = 1
  · subst one
    simp only [true_and]
    exact rounded_first first consistent zero
  · rw [if_neg (fun both => one both.1)]
    exact rounded_zero first consistent (by omega) zero

section Kept

variable {digs : ℤ → Char} {kept : ℕ}

/-- The kept digits begin with the first one. -/
theorem leading_kept (first : state.fd = 2) (consistent : state.Consistent)
    (positive : 1 ≤ kept) (inside : (kept : ℤ) < state.nd)
    (leading : 10 ^ (state.nd.toNat - 1) ≤ digitsValue state.digits) :
    10 ^ (kept - 1) ≤ keptValue state kept := by
  have areDigits := consistent.areDigits
  rw [digits_split first inside] at areDigits
  have others := digitsValue_lt (areDigits_append.mp areDigits).2
  rw [digits_split first inside, digitsValue_append, List.length_cons,
    Buffer.length_slice] at leading
  rw [List.length_cons, Buffer.length_slice] at others
  have count : state.nd.toNat - 1 =
      kept - 1 + (state.nd.toNat - kept - 1 + 1) := by
    omega
  rw [count, pow_add] at leading
  have more : 10 ^ (kept - 1) <
      digitsValue (Buffer.slice state.digs 2 kept) + 1 := by
    apply lt_of_mul_lt_mul_right _ (Nat.zero_le (10 ^ (state.nd.toNat - kept -
      1 + 1)))
    rw [add_mul, one_mul]
    omega
  rw [keptValue]
  omega

theorem rounded_truncate (first : state.fd = 2)
    (consistent : state.Consistent) (positive : 1 ≤ kept)
    (inside : (kept : ℤ) < state.nd)
    (same : ∀ i : ℤ, i < 2 ∨ kept + 2 ≤ i → digs i = state.digs i)
    (areDigits : AreDigits (Buffer.slice digs 2 kept))
    (value : digitsValue (Buffer.slice digs 2 kept) = keptValue state kept) :
    Rounded (kept + 1) state (state.truncate digs kept) ∧
      RoundedWithin (kept + 1) state (state.truncate digs kept) := by
  have last := consistent.last
  have digits := digits_truncate first digs kept
  refine ⟨⟨⟨?_, ?_, ?_⟩, value_eq_roundTo ?_ ?_, Or.inl ?_, ?_⟩,
    ⟨rfl, Or.inl ?_, Or.inl rfl, ?_⟩⟩
  · simp only [State.truncate]
    omega
  · simp only [State.truncate]
    omega
  · rwa [digits]
  · simp only [keptPlaces, State.truncate]
    omega
  · rw [digits, value, add_sub_cancel_right]
    exact roundHalfAway_kept first consistent inside
  · simp only [keptPlaces, State.truncate]
    omega
  · exact fun i outside => same i (by omega)
  · simp only [State.truncate]
    omega
  · rw [digits, value]
    exact leading_kept first consistent positive inside

theorem rounded_carryOut (first : state.fd = 2)
    (consistent : state.Consistent) (positive : 1 ≤ kept)
    (inside : (kept : ℤ) < state.nd)
    (same : ∀ i : ℤ, i < 2 ∨ kept + 2 ≤ i → digs i = state.digs i)
    (areDigits : AreDigits (Buffer.slice digs 2 kept))
    (value : digitsValue (Buffer.slice digs 2 kept) = 0)
    (full : keptValue state kept = 10 ^ kept) :
    Rounded (kept + 1) state (state.carryOut digs kept) ∧
      RoundedWithin (kept + 1) state (state.carryOut digs kept) := by
  have last := consistent.last
  have number : digitsValue ('1' :: Buffer.slice digs 2 kept) = 10 ^ kept := by
    rw [← List.singleton_append, digitsValue_append, value,
      Buffer.length_slice]
    exact Nat.one_mul _
  refine ⟨⟨⟨?_, ?_, ?_⟩, value_eq_roundTo ?_ ?_, Or.inl ?_, ?_⟩,
    ⟨rfl, Or.inr ⟨rfl, ?_⟩, Or.inr rfl, ?_⟩⟩
  · simp only [State.carryOut]
    omega
  · simp only [State.carryOut]
    omega
  · rw [digits_carryOut]
    exact areDigits_append.mpr
      ⟨areDigits_digitChar (show 1 < 10 by decide), areDigits⟩
  · simp only [keptPlaces, State.carryOut]
    omega
  · rw [digits_carryOut, number, ← full, add_sub_cancel_right]
    exact roundHalfAway_kept first consistent inside
  · simp only [keptPlaces, State.carryOut]
    omega
  · intro i outside
    rw [← same i (by omega)]
    exact Function.update_of_ne (by omega) _ _
  · rw [digits_carryOut, number]
    exact dvd_pow_self 10 (by omega)
  · intro _
    rw [digits_carryOut, number]
    exact Nat.pow_le_pow_right (by decide) (by simp only [State.carryOut]; omega)

end Kept

/-- Rounding at a digit. -/
theorem rounded_within (first : state.fd = 2) (consistent : state.Consistent)
    (inside : n < state.ld) (digit : 2 ≤ n) :
    Rounded n state (round n state) ∧
      RoundedWithin n state (round n state) := by
  have last := consistent.last
  obtain ⟨kept, rfl⟩ : ∃ kept : ℕ, n = kept + 1 :=
    ⟨(n - 1).toNat, by omega⟩
  obtain ⟨digs, same, areDigits, ⟨result, value⟩ | ⟨result, value, full⟩⟩ :=
    round_cases first consistent inside (by omega)
  · rw [result]
    exact rounded_truncate first consistent (by omega) (by omega) same
      areDigits value
  · rw [result]
    exact rounded_carryOut first consistent (by omega) (by omega) same
      areDigits value full

theorem rounded_round (first : state.fd = 2) (consistent : state.Consistent)
    (n : ℤ) : Rounded n state (round n state) := by
  rcases le_or_gt state.ld n with beyond | inside
  · rw [round_of_le beyond]
    exact rounded_of_le first consistent beyond
  · rcases lt_or_ge n 2 with before | digit
    · exact rounded_before first consistent inside before
    · exact (rounded_within first consistent inside digit).1

theorem roundedWithin_round (first : state.fd = 2)
    (consistent : state.Consistent) (digit : 2 ≤ n) :
    RoundedWithin n state (round n state) := by
  rcases le_or_gt state.ld n with beyond | inside
  · have last := consistent.last
    rw [round_of_le beyond]
    exact ⟨rfl, Or.inl (by omega), Or.inl rfl, id⟩
  · exact (rounded_within first consistent inside digit).2

end Round

end DecimalImages

end AdacHybridMsp430
