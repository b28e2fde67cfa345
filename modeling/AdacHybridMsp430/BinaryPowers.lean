import Mathlib.Algebra.Ring.Parity
import Mathlib.Algebra.Order.Ring.Nat

/-!
# Exponentiation by squaring

The loop over the binary digits of an exponent, from the lowest one up, on any
state and in any monad.  A digit one multiplies the result by the factor; every
digit but the last squares the factor.
-/

namespace BinaryPowers

variable {m : Type → Type} [Monad m] {S : Type}

def loop (multiply square : S → m S) (state : S) (exp : ℕ) : m S := do
  let state ← if exp % 2 ≠ 0 then multiply state else pure state
  if _last : exp / 2 = 0 then
    pure state
  else do
    let state ← square state
    loop multiply square state (exp / 2)
termination_by exp

section Rules

variable [LawfulMonad m] {multiply square : S → m S}

theorem loop_zero (state : S) :
    loop multiply square state 0 = pure state := by
  unfold loop
  simp

theorem loop_one (state : S) :
    loop multiply square state 1 = multiply state := by
  unfold loop
  simp

theorem loop_even (state : S) {exp : ℕ} (positive : 0 < exp) :
    loop multiply square state (2 * exp) = (do
      let state ← square state
      loop multiply square state exp) := by
  rw [loop]
  have digit : 2 * exp % 2 = 0 := by omega
  have rest : 2 * exp / 2 = exp := by omega
  simp [digit, rest, positive.ne']

theorem loop_odd (state : S) (exp : ℕ) :
    loop multiply square state (2 * exp + 1) = (do
      let state ← multiply state
      loop multiply square state (2 * exp)) := by
  have digit : (2 * exp + 1) % 2 = 1 := by omega
  have rest : (2 * exp + 1) / 2 = exp := by omega
  rcases exp.eq_zero_or_pos with rfl | positive
  · simp only [mul_zero, zero_add, loop_one, loop_zero, bind_pure]
  · simp only [loop_even _ positive]
    rw [loop]
    simp [digit, rest, positive.ne']

variable (invariant : S → ℕ → Prop)

/-- An invariant that every operation keeps, and under which none fails. -/
theorem loop_spec
    (odd : ∀ state exp, invariant state (2 * exp + 1) →
      ∃ next, multiply state = pure next ∧ invariant next (2 * exp))
    (even : ∀ state exp, 0 < exp → invariant state (2 * exp) →
      ∃ next, square state = pure next ∧ invariant next exp)
    (exp : ℕ) (state : S) (start : invariant state exp) :
    ∃ last, loop multiply square state exp = pure last ∧ invariant last 0 := by
  induction exp using Nat.strong_induction_on generalizing state with
  | _ exp ih =>
      obtain ⟨half, rfl | rfl⟩ := Nat.even_or_odd' exp
      · rcases half.eq_zero_or_pos with rfl | positive
        · exact ⟨state, loop_zero state, start⟩
        · obtain ⟨next, squared, kept⟩ := even state half positive start
          obtain ⟨last, ends, holds⟩ := ih half (by omega) next kept
          refine ⟨last, ?_, holds⟩
          rw [loop_even state positive, squared, pure_bind, ends]
      · obtain ⟨next, multiplied, kept⟩ := odd state half start
        obtain ⟨last, ends, holds⟩ := ih (2 * half) (by omega) next kept
        refine ⟨last, ?_, holds⟩
        rw [loop_odd, multiplied, pure_bind, ends]

/-- An invariant that the operations keep when they do not fail. -/
theorem loop_of_eq_some {multiply square : S → Option S}
    (odd : ∀ state next exp, invariant state (2 * exp + 1) →
      multiply state = some next → invariant next (2 * exp))
    (even : ∀ state next exp, invariant state (2 * exp) →
      square state = some next → invariant next exp)
    (exp : ℕ) (state last : S) (start : invariant state exp)
    (ends : loop multiply square state exp = some last) : invariant last 0 := by
  induction exp using Nat.strong_induction_on generalizing state with
  | _ exp ih =>
      obtain ⟨half, rfl | rfl⟩ := Nat.even_or_odd' exp
      · rcases half.eq_zero_or_pos with rfl | positive
        · rw [mul_zero, loop_zero] at ends
          rwa [← Option.some_inj.mp ends]
        · rw [loop_even state positive, Option.bind_eq_bind,
            Option.bind_eq_some_iff] at ends
          obtain ⟨next, squared, ends⟩ := ends
          exact ih half (by omega) next (even state next half start squared) ends
      · rw [loop_odd, Option.bind_eq_bind, Option.bind_eq_some_iff] at ends
        obtain ⟨next, multiplied, ends⟩ := ends
        exact ih (2 * half) (by omega) next
          (odd state next half start multiplied) ends

end Rules

end BinaryPowers
