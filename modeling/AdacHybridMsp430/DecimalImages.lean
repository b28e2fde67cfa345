import AdacHybridMsp430.DecimalNumerals
import AdacHybridMsp430.IntegerImages

/-!
# Images of decimal fixed-point numbers

`System.Img_Dec.Set_Decimal_Digits` rounds a string of digits in place and
writes it in one of several layouts.  The caller promises a string that holds
the result, so no position leaves the range of `Integer`.
-/

namespace AdacHybridMsp430

namespace DecimalImages

open TextBuffers DecimalNumerals

/-- The variables of `Set_Decimal_Digits` that rounding changes. -/
structure State where
  digs : ℤ → Char
  zero : Bool
  fd : ℤ
  ld : ℤ
  nd : ℤ
  digitsBeforePoint : ℤ

/-- The declarations of `Set_Decimal_Digits`. -/
def declare (digs : ℤ → Char) (nDigs scale : ℤ) : State where
  digs := digs
  zero := digs 2 = '0'
  fd := 2
  ld := nDigs
  nd := nDigs - 1
  digitsBeforePoint := nDigs - 1 - scale

/-- The loop of `Round`, for the given number of positions from the second on.
The flag tells whether it ran into the sign position. -/
def carry (digs : ℤ → Char) : ℕ → (ℤ → Char) × Bool
  | 0 => (digs, true)
  | positions + 1 =>
      let j : ℤ := positions + 2
      let d := Char.ofNat ((digs j).toNat + 1)
      if d ≤ '9' then (Function.update digs j d, false)
      else carry (Function.update digs j '0') positions

def round (n : ℤ) (state : State) : State :=
  if state.ld ≤ n then state
  else if n < state.fd then
    let state :=
      if n = 1 ∧ '5' ≤ state.digs 2 then
        { state with digs := Function.update state.digs 1 '1' }
      else
        { state with digs := Function.update state.digs 1 '0', zero := true }
    { state with
      digitsBeforePoint := state.digitsBeforePoint + 1
      fd := 1
      ld := 1
      nd := 1 }
  else
    let state := { state with ld := n, nd := n - 1 }
    if '5' ≤ state.digs (n + 1) then
      match carry state.digs (n - 1).toNat with
      | (digs, false) => { state with digs := digs }
      | (digs, true) =>
          { state with
            digs := Function.update digs 1 '1'
            fd := 1
            nd := state.nd + 1
            digitsBeforePoint := state.digitsBeforePoint + 1 }
    else state

def setBlanksAndSign (minus : Bool) (n : ℤ) (s : Buffer) : Buffer :=
  if minus then
    (s.putAll (List.replicate (n - 1).toNat ' ')).put '-'
  else
    s.putAll (List.replicate n.toNat ' ')

def setDigits (digs : ℤ → Char) (first last : ℤ) (s : Buffer) : Buffer :=
  s.putAll (Buffer.slice digs first (last + 1 - first).toNat)

def setZeroes (n : ℤ) (s : Buffer) : Buffer :=
  s.putAll (List.replicate n.toNat '0')

/-- The digits after rounding, with one digit before the point, and the
exponent. -/
def setScientific (state : State) (digitsAfterPoint exp : ℤ) (s : Buffer) :
    (ℤ → Char) × Buffer :=
  let s := s.put (state.digs state.fd)
  let fd := state.fd + 1
  let nd := state.nd - 1
  let s := s.put '.'
  let s :=
    if digitsAfterPoint ≤ nd then
      setDigits state.digs fd (fd + digitsAfterPoint - 1) s
    else
      setZeroes (digitsAfterPoint - nd) (setDigits state.digs fd state.ld s)
  let expon := if state.zero then 0 else state.digitsBeforePoint - 1
  let s := s.put 'E'
  let s := s.put (if 0 ≤ expon then '+' else '-')
  let image := IntegerImages.setImageInteger
    (if 0 ≤ expon then expon else -expon) { text := state.digs, last := 0 }
  let s := setZeroes (exp - image.last - 1) s
  (image.text, setDigits image.text 1 image.last s)

/-- The digits after rounding, without an exponent. -/
def setFixed (minus : Bool) (state : State) (fore digitsAfterPoint : ℤ)
    (s : Buffer) : Buffer :=
  if state.digitsBeforePoint ≤ 0 then
    let s := ((setBlanksAndSign minus (fore - 1) s).put '0').put '.'
    let lz := min digitsAfterPoint (-state.digitsBeforePoint)
    let s := setZeroes lz s
    let da := digitsAfterPoint - lz
    if da < state.nd then
      setDigits state.digs state.fd (state.fd + da - 1) s
    else
      setZeroes (da - state.nd) (setDigits state.digs state.fd state.ld s)
  else if state.nd < state.digitsBeforePoint then
    let s :=
      if state.nd = 1 ∧ state.digs state.fd = '0' then
        (setBlanksAndSign minus (fore - 1) s).put '0'
      else
        setZeroes (state.digitsBeforePoint - state.nd)
          (setDigits state.digs state.fd state.ld
            (setBlanksAndSign minus (fore - state.digitsBeforePoint) s))
    setZeroes digitsAfterPoint (s.put '.')
  else
    let s := setDigits state.digs state.fd
      (state.fd + state.digitsBeforePoint - 1)
      (setBlanksAndSign minus (fore - state.digitsBeforePoint) s)
    setZeroes (digitsAfterPoint - (state.nd - state.digitsBeforePoint))
      (setDigits state.digs (state.fd + state.digitsBeforePoint) state.ld
        (s.put '.'))

/-- The parameters `Digs` and `S` with `P` after the call. -/
def setDecimalDigits (digs : ℤ → Char) (nDigs : ℤ) (s : Buffer) (scale : ℤ)
    (fore aft exp : ℕ) : (ℤ → Char) × Buffer :=
  let minus : Bool := digs 1 = '-'
  let state := declare digs nDigs scale
  let digitsAfterPoint : ℤ := max 1 aft
  if 0 < exp then
    let s := setBlanksAndSign minus (fore - 1) s
    setScientific (round (digitsAfterPoint + 2) state) digitsAfterPoint exp s
  else
    let state := round (state.ld - (scale - digitsAfterPoint)) state
    (state.digs, setFixed minus state fore digitsAfterPoint s)

section Carry

/-- Only the given positions are changed. -/
theorem carry_of_outside (digs : ℤ → Char) (positions : ℕ) {i : ℤ}
    (outside : i < 2 ∨ positions + 2 ≤ i) :
    (carry digs positions).1 i = digs i := by
  induction positions generalizing digs with
  | zero => rfl
  | succ positions ih =>
      push_cast at outside
      have apart : i ≠ positions + 2 := by
        omega
      rw [carry]
      split
      · exact Function.update_of_ne apart _ _
      · rw [ih _ (by omega)]
        exact Function.update_of_ne apart _ _

/-- The next digit, if there is one. -/
theorem succ_digitChar {d : ℕ} (digit : d < 10) :
    (d = 9 ∧ ¬ Char.ofNat (d.digitChar.toNat + 1) ≤ '9') ∨
      (d < 9 ∧ Char.ofNat (d.digitChar.toNat + 1) ≤ '9' ∧
        Char.ofNat (d.digitChar.toNat + 1) = (d + 1).digitChar) := by
  interval_cases d <;> decide

theorem slice_update_of_outside (digs : ℤ → Char) {j first : ℤ} {count : ℕ}
    (character : Char) (outside : j < first ∨ first + count ≤ j) :
    Buffer.slice (Function.update digs j character) first count =
      Buffer.slice digs first count :=
  Buffer.slice_congr fun i lower upper =>
    Function.update_of_ne (by omega) _ _

/-- The loop adds one, up to the carry into the sign position. -/
theorem carry_spec (digs : ℤ → Char) (positions : ℕ)
    (areDigits : AreDigits (Buffer.slice digs 2 positions)) :
    AreDigits (Buffer.slice (carry digs positions).1 2 positions) ∧
      digitsValue (Buffer.slice (carry digs positions).1 2 positions) +
          (if (carry digs positions).2 then 10 ^ positions else 0) =
        digitsValue (Buffer.slice digs 2 positions) + 1 := by
  induction positions generalizing digs with
  | zero => exact ⟨areDigits, by simp [carry, Buffer.slice]⟩
  | succ positions ih =>
      rw [Buffer.slice_succ, areDigits_append] at areDigits
      obtain ⟨before, last⟩ := areDigits
      obtain ⟨d, digit, isDigit⟩ := exists_digitChar (last _ List.mem_cons_self)
      have position : (2 : ℤ) + positions = positions + 2 :=
        Int.add_comm _ _
      rw [position] at isDigit
      rw [Buffer.slice_succ digs, digitsValue_append, position, isDigit,
        digitsValue_digitChar digit, carry, isDigit]
      rcases succ_digitChar digit with ⟨rfl, beyond⟩ | ⟨below, fits, next⟩
      · -- a nine becomes a zero and the carry goes on
        rw [if_neg beyond]
        have same := slice_update_of_outside digs '0'
          (show (positions + 2 : ℤ) < 2 ∨ 2 + (positions : ℤ) ≤ positions + 2 by
            omega)
        obtain ⟨digits, value⟩ :=
          ih (Function.update digs (positions + 2) '0') (by rwa [same])
        have zero : (carry (Function.update digs (positions + 2) '0')
            positions).1 (positions + 2) = '0' := by
          rw [carry_of_outside _ _ (Or.inr le_rfl)]
          exact Function.update_self _ _ _
        rw [same] at value
        rw [Buffer.slice_succ, position, zero]
        refine ⟨areDigits_append.mpr ⟨digits, areDigits_zeros 1⟩, ?_⟩
        have noDigit : digitsValue ['0'] = 0 :=
          rfl
        rw [digitsValue_append, noDigit]
        simp only [List.length_singleton, pow_one]
        cases carried : (carry (Function.update digs (positions + 2) '0')
            positions).2 with
        | false =>
            simp only [carried, Bool.false_eq_true, if_false] at value ⊢
            omega
        | true =>
            simp only [carried, if_true] at value ⊢
            rw [pow_succ]
            omega
      · rw [if_pos fits]
        dsimp only
        rw [Buffer.slice_succ, position, Function.update_self,
          slice_update_of_outside digs _ (by omega), next]
        refine ⟨areDigits_append.mpr
          ⟨before, areDigits_digitChar (by omega)⟩, ?_⟩
        rw [digitsValue_append, digitsValue_digitChar (by omega)]
        simp only [List.length_singleton, Bool.false_eq_true, if_false]
        omega

end Carry

end DecimalImages

end AdacHybridMsp430
