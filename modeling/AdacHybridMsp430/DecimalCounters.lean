import AdacHybridMsp430.DecimalLayouts
import AdacHybridMsp430.SignedWords

/-!
# Counters of the decimal layouts

After every path of `Round` the digits fit into the places after the point, or
a single one is left behind all of them.  So the layout without digits before
the point never cuts digits off: where fewer places are left than there are
digits, no place is left, and elsewhere zeros fill exactly the rest.
-/

namespace AdacHybridMsp430

namespace DecimalImages

open TextBuffers DecimalNumerals

/-- The variable `LZ`. -/
def State.lz (state : State) (digitsAfterPoint : ℤ) : ℤ :=
  min digitsAfterPoint (-state.digitsBeforePoint)

/-- The variable `DA` after the leading zeros. -/
def State.da (state : State) (digitsAfterPoint : ℤ) : ℤ :=
  digitsAfterPoint - state.lz digitsAfterPoint

/-- What the layout without digits before the point writes in front of its last
branch. -/
def setLeadingZeroes (minus : Bool) (state : State) (fore digitsAfterPoint : ℤ)
    (s : Buffer) : Buffer :=
  setZeroes (state.lz digitsAfterPoint)
    (((setBlanksAndSign minus (fore - 1) s).put '0').put '.')

section Counters

variable {n : ℤ} {state : State}

/-- The relation of the counters after the rounding. -/
structure Counted (places : ℤ) (state : State) : Prop where
  positive : 1 ≤ state.nd
  last : state.ld = state.fd + state.nd - 1
  point : state.nd - state.digitsBeforePoint ≤ places ∨
    state.fd = 1 ∧ state.nd = 1 ∧ places ≤ -state.digitsBeforePoint

/-- The paths of `Round`, and what each of them makes of the counters. -/
inductive RoundPath (n : ℤ) (before after : State) : Prop
  | unchanged (beyond : before.ld ≤ n) (same : after = before)
  | beforeFirst (inside : n < before.ld) (position : n < 2)
      (fd : after.fd = 1) (ld : after.ld = 1) (nd : after.nd = 1)
      (point : after.digitsBeforePoint = before.digitsBeforePoint + 1)
  | plain (inside : n < before.ld) (position : 2 ≤ n)
      (fd : after.fd = 2) (ld : after.ld = n) (nd : after.nd = n - 1)
      (point : after.digitsBeforePoint = before.digitsBeforePoint)
  | carriedOut (inside : n < before.ld) (position : 2 ≤ n)
      (fd : after.fd = 1) (ld : after.ld = n) (nd : after.nd = n)
      (point : after.digitsBeforePoint = before.digitsBeforePoint + 1)

theorem path_truncate (first : state.fd = 2) {kept : ℕ} (positive : 1 ≤ kept)
    (inside : (kept : ℤ) + 1 < state.ld) (digs : ℤ → Char) :
    RoundPath (kept + 1) state (state.truncate digs kept) := by
  apply RoundPath.plain inside (by omega)
  · exact first
  · rfl
  · simp only [State.truncate]
    omega
  · rfl

theorem path_carryOut {kept : ℕ} (positive : 1 ≤ kept)
    (inside : (kept : ℤ) + 1 < state.ld) (digs : ℤ → Char) :
    RoundPath (kept + 1) state (state.carryOut digs kept) :=
  RoundPath.carriedOut inside (by omega) rfl rfl rfl rfl

/-- Every call takes one of the paths, whatever the characters are. -/
theorem path_round (first : state.fd = 2) (n : ℤ) :
    RoundPath n state (round n state) := by
  rcases le_or_gt state.ld n with beyond | inside
  · exact RoundPath.unchanged beyond (round_of_le beyond)
  rcases lt_or_ge n 2 with before | digit
  · obtain ⟨zero, result⟩ := round_before first inside before
    rw [result]
    exact RoundPath.beforeFirst inside before rfl rfl rfl rfl
  · obtain ⟨kept, rfl⟩ : ∃ kept : ℕ, n = kept + 1 :=
      ⟨(n - 1).toNat, by omega⟩
    have positive : 1 ≤ kept := by
      omega
    rw [round_at first inside positive]
    split
    · split
      · exact path_carryOut positive inside _
      · exact path_truncate first positive inside _
    · exact path_truncate first positive inside _

/-- Every path keeps the relation. -/
theorem RoundPath.counted {after : State} (path : RoundPath n state after)
    (positive : 1 ≤ state.nd) (last : state.ld = state.fd + state.nd - 1)
    (first : state.fd = 2) : Counted (keptPlaces n state) after := by
  cases path with
  | unchanged beyond same =>
      subst same
      refine ⟨positive, last, Or.inl ?_⟩
      rw [keptPlaces]
      omega
  | beforeFirst inside position fd ld nd point =>
      refine ⟨by omega, by omega, ?_⟩
      rw [keptPlaces]
      omega
  | plain inside position fd ld nd point =>
      refine ⟨by omega, by omega, Or.inl ?_⟩
      rw [keptPlaces]
      omega
  | carriedOut inside position fd ld nd point =>
      refine ⟨by omega, by omega, Or.inl ?_⟩
      rw [keptPlaces]
      omega

theorem path_fixedState (digs : ℤ → Char) (nDigs scale places : ℤ) :
    RoundPath (nDigs - (scale - places)) (declare digs nDigs scale)
      (fixedState digs nDigs scale places) :=
  path_round rfl _

/-- The places that a call asks for are those that its rounding keeps. -/
theorem counted_fixedState (digs : ℤ → Char) {nDigs : ℤ} (length : 2 ≤ nDigs)
    (scale places : ℤ) : Counted places (fixedState digs nDigs scale places) := by
  have positive : 1 ≤ (declare digs nDigs scale).nd := by
    simp only [declare]
    omega
  have last : (declare digs nDigs scale).ld =
      (declare digs nDigs scale).fd + (declare digs nDigs scale).nd - 1 := by
    simp only [declare]
    omega
  have counted :=
    (path_fixedState digs nDigs scale places).counted positive last rfl
  rwa [keptPlaces_declare] at counted

end Counters

section Branches

variable {state : State} {places : ℕ}

/-- Where fewer places are left than there are digits, none is left. -/
theorem Counted.da_eq_zero (counted : Counted places state)
    (few : state.da places < state.nd) :
    state.fd = 1 ∧ state.nd = 1 ∧ state.da places = 0 := by
  obtain ⟨positive, _, fits | ⟨first, single, beyond⟩⟩ := counted
  · -- all the digits would fit behind the leading zeros
    simp only [State.da, State.lz] at few
    omega
  · refine ⟨first, single, ?_⟩
    simp only [State.da, State.lz]
    omega

/-- Where the digits fit, all the leading zeros do. -/
theorem Counted.lz_eq (counted : Counted places state)
    (fits : state.nd ≤ state.da places) :
    state.lz places = -state.digitsBeforePoint := by
  have positive := counted.positive
  simp only [State.da, State.lz] at fits ⊢
  omega

theorem setDigits_nothing (digs : ℤ → Char) {first last : ℤ}
    (empty : last + 1 = first) (s : Buffer) : setDigits digs first last s = s := by
  rw [setDigits_slice digs 0 (by push_cast; omega)]
  rfl

/-- The characters after the point, with a number of trailing zeros. -/
def State.fraction (state : State) (places : ℤ) (zeros : ℕ) : List Char :=
  List.replicate (state.lz places).toNat '0' ++
    (state.digits ++ List.replicate zeros '0')

/-- The branch `DA < ND`: no place is left, and the call of `Set_Digits` writes
no digit. -/
structure Silent (state : State) (places : ℤ) (before after : Buffer) : Prop where
  da : state.da places = 0
  call : after = setDigits state.digs state.fd
    (state.fd + state.da places - 1) before
  nothing : after = before

/-- The other branch: all the digits are written, and `DA - ND` is the one
number of zeros that fills the places behind them. -/
structure Filled (state : State) (places : ℤ) (before after : Buffer) : Prop where
  call : after = setZeroes (state.da places - state.nd)
    (setDigits state.digs state.fd state.ld before)
  written : after = before.putAll (state.digits ++
    List.replicate (state.da places - state.nd).toNat '0')
  nonneg : 0 ≤ state.da places - state.nd
  exact : ∀ zeros : ℕ, (state.fraction places zeros).length = places ↔
    (zeros : ℤ) = state.da places - state.nd
  value : (digitsValue (state.fraction places
      (state.da places - state.nd).toNat) : ℚ) * 10 ^ (-places) = state.value

/-- What the layout without digits before the point does behind the leading
zeros. -/
structure FillsPlaces (state : State) (places : ℤ) (before after : Buffer) :
    Prop where
  silent : state.da places < state.nd → Silent state places before after
  filled : ¬ state.da places < state.nd → Filled state places before after

theorem setFixed_of_nonpos (small : state.digitsBeforePoint ≤ 0) (minus : Bool)
    (fore digitsAfterPoint : ℤ) (s : Buffer) :
    setFixed minus state fore digitsAfterPoint s =
      if state.da digitsAfterPoint < state.nd then
        setDigits state.digs state.fd (state.fd + state.da digitsAfterPoint - 1)
          (setLeadingZeroes minus state fore digitsAfterPoint s)
      else
        setZeroes (state.da digitsAfterPoint - state.nd)
          (setDigits state.digs state.fd state.ld
            (setLeadingZeroes minus state fore digitsAfterPoint s)) :=
  if_pos small

theorem Counted.silent (counted : Counted places state)
    (few : state.da places < state.nd) (before : Buffer) :
    Silent state places before
      (setDigits state.digs state.fd (state.fd + state.da places - 1) before) := by
  obtain ⟨_, _, none⟩ := counted.da_eq_zero few
  refine ⟨none, rfl, ?_⟩
  apply setDigits_nothing
  omega

theorem Counted.filled (counted : Counted places state)
    (small : state.digitsBeforePoint ≤ 0)
    (enough : ¬ state.da places < state.nd) (before : Buffer) :
    Filled state places before
      (setZeroes (state.da places - state.nd)
        (setDigits state.digs state.fd state.ld before)) := by
  have fits := not_lt.mp enough
  have leading := counted.lz_eq fits
  have positive := counted.positive
  have last := counted.last
  have sum : state.lz places + state.da places = places := by
    rw [State.da]
    omega
  have digits : (state.digits.length : ℤ) = state.nd := by
    rw [State.digits, Buffer.length_slice]
    omega
  refine ⟨rfl, ?_, by omega, ?_, ?_⟩
  · rw [setDigits_slice state.digs state.nd.toNat (by omega), setZeroes,
      Buffer.putAll_putAll]
    rfl
  · intro zeros
    simp only [State.fraction, List.length_append, List.length_replicate]
    omega
  · apply value_of_shift (state.da places - state.nd).toNat
    · omega
    · rw [State.fraction, digitsValue_zeros_append, digitsValue_append_zeros]

end Branches

section Range

/-- Fewer places are left than digits exactly where the rounding lies at least
two positions before the first digit. -/
theorem da_lt_nd_iff (digs : ℤ → Char) {nDigs : ℤ} (length : 2 ≤ nDigs)
    (scale : ℤ) (places : ℕ) :
    (fixedState digs nDigs scale places).da places <
        (fixedState digs nDigs scale places).nd ↔
      nDigs + places ≤ scale := by
  rw [State.da, State.lz]
  cases path_fixedState digs nDigs scale places with
  | unchanged beyond same =>
      rw [same]
      simp only [declare] at beyond ⊢
      omega
  | beforeFirst inside position fd ld nd point =>
      simp only [declare] at point
      omega
  | plain inside position fd ld nd point =>
      simp only [declare] at inside point
      omega
  | carriedOut inside position fd ld nd point =>
      simp only [declare] at inside point
      omega

/-- The numbers that a comment of the source gives leave a place for the one
digit. -/
example (digs : ℤ → Char) :
    ¬ (fixedState digs 5 5 (1 : ℕ)).da (1 : ℕ) <
      (fixedState digs 5 5 (1 : ℕ)).nd := by
  rw [da_lt_nd_iff digs (by decide)]
  decide

/-- The counters after the rounding lie between those of the declarations. -/
theorem fixedState_bounds (digs : ℤ → Char) {nDigs : ℤ} (length : 2 ≤ nDigs)
    (scale places : ℤ) :
    1 ≤ (fixedState digs nDigs scale places).fd ∧
      (fixedState digs nDigs scale places).fd ≤ 2 ∧
      (fixedState digs nDigs scale places).ld ≤ nDigs ∧
      (fixedState digs nDigs scale places).nd ≤ nDigs ∧
      nDigs - 1 - scale ≤
        (fixedState digs nDigs scale places).digitsBeforePoint ∧
      (fixedState digs nDigs scale places).digitsBeforePoint ≤
        nDigs - scale := by
  cases path_fixedState digs nDigs scale places with
  | unchanged beyond same =>
      rw [same]
      simp only [declare]
      omega
  | beforeFirst inside position fd ld nd point =>
      simp only [declare] at point
      omega
  | plain inside position fd ld nd point =>
      simp only [declare] at inside point
      omega
  | carriedOut inside position fd ld nd point =>
      simp only [declare] at inside point
      omega

/-- The values of type `Integer` that a call without an exponent computes in
the layout without digits before the point. -/
def counters (state : State) (nDigs scale places : ℤ) : List ℤ :=
  [nDigs - 1, nDigs - 1 - scale, scale - places, nDigs - (scale - places),
    state.fd, state.ld, state.nd, state.digitsBeforePoint,
    -state.digitsBeforePoint, state.lz places, state.da places,
    state.fd + state.da places - 1, state.da places - state.nd]

/-- No counter leaves a type that holds the sum of the parameters, so the
integers stand for its words. -/
theorem inRange_counters (digs : ℤ → Char) {nDigs scale : ℤ} {places width : ℕ}
    (length : 2 ≤ nDigs) (size : nDigs + |scale| + places + 1 < 2 ^ (width - 1))
    {value : ℤ}
    (isCounter : value ∈ counters (fixedState digs nDigs scale places) nDigs
      scale places) :
    SignedWords.InRange width value := by
  have counted := counted_fixedState digs length scale places
  have bounds := fixedState_bounds digs length scale places
  have positive := counted.positive
  have last := counted.last
  have lower := neg_abs_le scale
  have upper := le_abs_self scale
  simp only [counters, State.da, State.lz, List.mem_cons, List.not_mem_nil,
    or_false] at isCounter
  have bound : -(nDigs + |scale| + places + 1) ≤ value ∧
      value ≤ nDigs + |scale| + places + 1 := by
    rcases isCounter with rfl | rfl | rfl | rfl | rfl | rfl | rfl | rfl | rfl |
      rfl | rfl | rfl | rfl <;> omega
  constructor
  · exact (neg_le_neg size.le).trans bound.1
  · exact bound.2.trans_lt size

end Range

/-- The layout without digits before the point never cuts digits off. -/
theorem fillsPlaces (digs : ℤ → Char) {nDigs : ℤ} (length : 2 ≤ nDigs)
    (scale : ℤ) (fore aft : ℕ) (s : Buffer)
    (small : (fixedState digs nDigs scale (max 1 aft : ℕ)).digitsBeforePoint ≤ 0) :
    FillsPlaces (fixedState digs nDigs scale (max 1 aft : ℕ)) (max 1 aft : ℕ)
      (setLeadingZeroes (digs 1 = '-')
        (fixedState digs nDigs scale (max 1 aft : ℕ)) fore (max 1 aft : ℕ) s)
      (setDecimalDigits digs nDigs s scale fore aft 0).2 := by
  have counted := counted_fixedState digs length scale (max 1 aft : ℕ)
  rw [setDecimalDigits_fixed, setFixed_of_nonpos small]
  constructor
  · intro few
    rw [if_pos few]
    exact counted.silent few _
  · intro enough
    rw [if_neg enough]
    exact counted.filled small enough _

/-- Nines, which a rounding carries out of or rounds away. -/
def nines (_ : ℤ) : Char :=
  '9'

theorem fillsPlaces_nines :
    (∃ before, Silent (fixedState nines 5 6 (max 1 1 : ℕ)) (max 1 1 : ℕ) before
        (setDecimalDigits nines 5 { text := nines, last := 0 } 6 0 1 0).2) ∧
      ∃ before, Filled (fixedState nines 3 3 (max 1 2 : ℕ)) (max 1 2 : ℕ) before
        (setDecimalDigits nines 3 { text := nines, last := 0 } 3 0 2 0).2 :=
  ⟨⟨_, (fillsPlaces nines (by decide) 6 0 1 _ (by decide)).silent (by decide)⟩,
    ⟨_, (fillsPlaces nines (by decide) 3 0 2 _ (by decide)).filled (by decide)⟩⟩

end DecimalImages

end AdacHybridMsp430
