import AdacHybridMsp430.ArctanhTerms
import AdacHybridMsp430.BinaryFloatIntegers
import AdacHybridMsp430.FloatRemainders
import Mathlib.Analysis.SpecialFunctions.Trigonometric.Complex

/-!
# Reductions to a cycle

The trigonometric functions of an arbitrary cycle subtract whole cycles, and half a
cycle, from machine numbers without rounding.  The reduced number has the sine and
the cosine of the argument, so that the poles and the zeros are found exactly.
-/

namespace AdacHybridMsp430

namespace ElementaryFunctions

open BinaryFloats FloatAttributes

section Angles

/-- The angle of a number on a circle of the given length. -/
noncomputable def angle (cycle x : ℚ) : ℝ :=
  2 * Real.pi * ((x / cycle : ℚ) : ℝ)

variable {cycle : ℚ}

theorem angle_sub (x y : ℚ) :
    angle cycle (x - y) = angle cycle x - angle cycle y := by
  unfold angle
  push_cast
  ring

theorem angle_neg (x : ℚ) : angle cycle (-x) = -angle cycle x := by
  unfold angle
  push_cast
  ring

theorem angle_mul (ratio : ℚ) (nonzero : cycle ≠ 0) :
    angle cycle (ratio * cycle) = ratio * (2 * Real.pi) := by
  unfold angle
  rw [mul_div_cancel_right₀ _ nonzero]
  ring

theorem angle_sub_cycles (nonzero : cycle ≠ 0) (x : ℚ) (n : ℤ) :
    angle cycle (x - n * cycle) = angle cycle x - n * (2 * Real.pi) := by
  rw [angle_sub, angle_mul _ nonzero]
  push_cast
  rfl

theorem sin_angle_sub_cycles (nonzero : cycle ≠ 0) (x : ℚ) (n : ℤ) :
    Real.sin (angle cycle (x - n * cycle)) = Real.sin (angle cycle x) := by
  rw [angle_sub_cycles nonzero, Real.sin_sub_int_mul_two_pi]

theorem cos_angle_sub_cycles (nonzero : cycle ≠ 0) (x : ℚ) (n : ℤ) :
    Real.cos (angle cycle (x - n * cycle)) = Real.cos (angle cycle x) := by
  rw [angle_sub_cycles nonzero, Real.cos_sub_int_mul_two_pi]

/-- The reflection at a quarter of the circle. -/
theorem sin_angle_half_sub (nonzero : cycle ≠ 0) (t : ℚ) :
    Real.sin (angle cycle (cycle / 2 - t)) = Real.sin (angle cycle t) := by
  have half : angle cycle (cycle / 2) = Real.pi := by
    rw [show cycle / 2 = 1 / 2 * cycle by ring, angle_mul _ nonzero]
    push_cast
    ring
  rw [angle_sub, half, Real.sin_pi_sub]

theorem sin_angle_neg_half_sub (nonzero : cycle ≠ 0) (t : ℚ) :
    Real.sin (angle cycle (-(cycle / 2) - t)) = Real.sin (angle cycle t) := by
  have reflected := sin_angle_half_sub nonzero (-t)
  rw [angle_neg, Real.sin_neg] at reflected
  rw [show -(cycle / 2) - t = -(cycle / 2 - -t) by ring, angle_neg, Real.sin_neg,
    reflected, neg_neg]

/-- The sine of the preceding quarter. -/
theorem neg_sin_angle_sub_quarter (nonzero : cycle ≠ 0) (x : ℚ) :
    -Real.sin (angle cycle (|x| - cycle / 4)) = Real.cos (angle cycle x) := by
  have quarter : angle cycle (cycle / 4) = Real.pi / 2 := by
    rw [show cycle / 4 = 1 / 4 * cycle by ring, angle_mul _ nonzero]
    push_cast
    ring
  rw [angle_sub, quarter, Real.sin_sub_pi_div_two, neg_neg]
  rcases abs_choice x with same | flipped
  · rw [same]
  · rw [flipped, angle_neg, Real.cos_neg]

/-- A fraction of a turn is the same fraction of the cycle. -/
theorem angle_eq_iff (positive : 0 < cycle) (ratio t : ℚ) :
    angle cycle t = ratio * (2 * Real.pi) ↔ t = ratio * cycle := by
  have turn : (2 * Real.pi : ℝ) ≠ 0 := by positivity
  rw [← div_eq_iff positive.ne', angle, mul_comm, mul_left_inj' turn]
  exact Rat.cast_inj

theorem sin_angle_eq_zero_iff (positive : 0 < cycle) {t : ℚ}
    (half : |t| ≤ cycle / 2) :
    Real.sin (angle cycle t) = 0 ↔ t = 0 ∨ |t| = cycle / 2 := by
  have turns : Real.sin (angle cycle t) = 0 ↔ ∃ n : ℤ, t = (n / 2 : ℚ) * cycle := by
    rw [Real.sin_eq_zero_iff]
    apply exists_congr
    intro n
    rw [← angle_eq_iff positive]
    push_cast
    rw [show (n : ℝ) * Real.pi = n / 2 * (2 * Real.pi) by ring, eq_comm]
  rw [turns]
  constructor
  · rintro ⟨n, tIs⟩
    have size : |(n : ℚ)| ≤ 1 := by
      have le : |(n : ℚ)| / 2 * cycle ≤ 1 / 2 * cycle := by
        calc |(n : ℚ)| / 2 * cycle = |t| := by
              rw [tIs, abs_mul, abs_div, abs_of_pos positive, abs_two]
          _ ≤ cycle / 2 := half
          _ = 1 / 2 * cycle := by ring
      linarith [le_of_mul_le_mul_right le positive]
    have sizeInt : |n| ≤ 1 := by
      exact_mod_cast size
    rcases eq_or_ne n 0 with rfl | nonzero
    · left
      rw [tIs]
      simp
    · have one : |(n : ℚ)| = 1 := by
        exact_mod_cast le_antisymm sizeInt (Int.one_le_abs nonzero)
      right
      rw [tIs, abs_mul, abs_div, abs_of_pos positive, one, abs_two]
      ring
  · rintro (rfl | whole)
    · exact ⟨0, by simp⟩
    · rcases eq_or_eq_neg_of_abs_eq whole with rfl | rfl
      · exact ⟨1, by push_cast; ring⟩
      · exact ⟨-1, by push_cast; ring⟩

theorem cos_angle_eq_zero_iff (positive : 0 < cycle) {t : ℚ}
    (half : |t| ≤ cycle / 2) :
    Real.cos (angle cycle t) = 0 ↔ |t| = cycle / 4 := by
  have turns : Real.cos (angle cycle t) = 0 ↔
      ∃ k : ℤ, t = ((2 * k + 1 : ℤ) / 4 : ℚ) * cycle := by
    rw [Real.cos_eq_zero_iff]
    apply exists_congr
    intro k
    rw [← angle_eq_iff positive]
    push_cast
    rw [show ((2 * k + 1) * Real.pi / 2 : ℝ) = (2 * k + 1) / 4 * (2 * Real.pi) by
      ring]
  rw [turns]
  constructor
  · rintro ⟨k, tIs⟩
    have size : |((2 * k + 1 : ℤ) : ℚ)| ≤ 2 := by
      have le : |((2 * k + 1 : ℤ) : ℚ)| / 4 * cycle ≤ 1 / 2 * cycle := by
        calc |((2 * k + 1 : ℤ) : ℚ)| / 4 * cycle = |t| := by
              rw [tIs, abs_mul, abs_div, abs_of_pos positive]
              norm_num
          _ ≤ cycle / 2 := half
          _ = 1 / 2 * cycle := by ring
      linarith [le_of_mul_le_mul_right le positive]
    have sizeInt : |2 * k + 1| ≤ 2 := by
      exact_mod_cast size
    have one : |((2 * k + 1 : ℤ) : ℚ)| = 1 := by
      exact_mod_cast (show |2 * k + 1| = 1 by
        rw [abs_le] at sizeInt
        rw [abs_eq (by norm_num)]
        omega)
    rw [tIs, abs_mul, abs_div, abs_of_pos positive, one]
    norm_num
    ring
  · intro quarter
    rcases eq_or_eq_neg_of_abs_eq quarter with rfl | rfl
    · exact ⟨0, by push_cast; ring⟩
    · exact ⟨-1, by push_cast; ring⟩

end Angles

section Reductions

variable {inst : Instance} {fuel : ℕ} {x cycle : ℚ}

/-- `Remainder` subtracts whole cycles. -/
theorem remainderThen_spec (enough : passes inst.format < fuel)
    (xMachine : inst.format.Representable x)
    (cycleMachine : inst.format.Representable cycle) (positive : 0 < cycle) :
    ∃ t, inst.format.Representable t ∧ |t| ≤ cycle / 2 ∧
      Real.sin (angle cycle t) = Real.sin (angle cycle x) ∧
      Real.cos (angle cycle t) = Real.cos (angle cycle x) ∧
      ∀ rest, remainderThen inst fuel x cycle rest = some (rest t) := by
  obtain ⟨state, pExp, ends, divided⟩ := modulus_spec (package_normal inst.package)
    xMachine.abs (abs_nonneg x) cycleMachine.abs (abs_pos.mpr positive.ne') enough
  obtain ⟨n, corrected, nearest⟩ := correct_spec pExp divided
  obtain ⟨m, signed, isNearest⟩ := nearest_of_abs nearest
  have restIs : ∀ other : ℤ, |x - other * cycle| = |x / cycle - other| * cycle := by
    intro other
    rw [← abs_of_pos positive, ← abs_mul, abs_of_pos positive, sub_mul,
      div_mul_cancel₀ x positive.ne']
  have half : |x - m * cycle| ≤ cycle / 2 := by
    have near := mul_le_mul_of_nonneg_right isNearest.abs_le positive.le
    rw [restIs]
    linarith
  have leX : |x - m * cycle| ≤ |x| := by
    have least := mul_le_mul_of_nonneg_right (isNearest.least 0) positive.le
    rw [← restIs, ← restIs] at least
    simpa using least
  have exact : inst.format.Representable (x - m * cycle) := by
    apply xMachine.combine cycleMachine ⟨1, -m, by push_cast; ring⟩ leX
    rw [abs_of_pos positive]
    linarith
  have returned : remainder inst.format fuel x cycle = some (.ok (x - m * cycle)) := by
    rw [remainder, if_neg positive.ne', arg_eq, ends]
    change some (Except.ok (signX x * correct state pExp cycle)) = _
    rw [corrected, signed]
  refine ⟨x - m * cycle, exact, half, sin_angle_sub_cycles positive.ne' x m,
    cos_angle_sub_cycles positive.ne' x m, ?_⟩
  intro rest
  rw [remainderThen, returned]
  rfl

/-- The halves of a cycle whose quarter is a machine number. -/
theorem cycle_parts (quarter : inst.format.Representable (cycle / 4))
    (cycleMachine : inst.format.Representable cycle) (positive : 0 < cycle) :
    machine inst.format (1 / 4 * cycle) = cycle / 4 ∧
      machine inst.format (1 / 2 * cycle) = cycle / 2 ∧
      inst.format.Representable (cycle / 2) := by
  have half : inst.format.Representable (cycle / 2) := by
    obtain ⟨_, _, _, _, _, range⟩ := cycleMachine
    have shifted : cycle / 2 * 2 ^ (-1 : ℤ) = cycle / 4 := by
      norm_num
      ring
    apply quarter.of_scaled shifted _ (Or.inl (by norm_num))
    rw [abs_of_pos positive] at range
    rw [abs_of_pos (by linarith)]
    linarith
  refine ⟨?_, ?_, half⟩
  · rw [one_div_mul_eq_div]
    exact nearest_of_representable quarter
  · rw [one_div_mul_eq_div]
    exact nearest_of_representable half

/-- The second reduction is exact: the number is not far from half of the cycle. -/
theorem reflect_spec (quarter : inst.format.Representable (cycle / 4))
    (cycleMachine : inst.format.Representable cycle) (positive : 0 < cycle) {t : ℚ}
    (tMachine : inst.format.Representable t) (half : |t| ≤ cycle / 2) :
    inst.format.Representable (reflect inst cycle t) ∧
      |reflect inst cycle t| ≤ cycle / 4 ∧
      Real.sin (angle cycle (reflect inst cycle t)) = Real.sin (angle cycle t) := by
  obtain ⟨quarterIs, _, halfMachine⟩ := cycle_parts quarter cycleMachine positive
  obtain ⟨lower, upper⟩ := abs_le.mp half
  unfold reflect
  rw [quarterIs]
  split
  · rename_i large
    rcases lt_or_ge t 0 with negative | nonneg
    · have signed : machine inst.format (1 / 2 * copySign cycle t) = -(cycle / 2) := by
        rw [copySign, if_pos negative, abs_of_pos positive,
          show 1 / 2 * -cycle = -(cycle / 2) by ring]
        exact nearest_of_representable halfMachine.neg
      rw [abs_of_neg negative] at large
      have exact : inst.format.Representable (-(cycle / 2) - t) := by
        have difference := tMachine.neg.sub halfMachine (by linarith) (by linarith)
        rwa [show -t - cycle / 2 = -(cycle / 2) - t by ring] at difference
      have kept : machine inst.format (-(cycle / 2) - t) = -(cycle / 2) - t :=
        nearest_of_representable exact
      rw [signed, kept]
      refine ⟨exact, ?_, sin_angle_neg_half_sub positive.ne' t⟩
      rw [abs_le]
      constructor <;> linarith
    · have signed : machine inst.format (1 / 2 * copySign cycle t) = cycle / 2 := by
        rw [copySign, if_neg nonneg.not_gt, abs_of_pos positive,
          one_div_mul_eq_div]
        exact nearest_of_representable halfMachine
      rw [abs_of_nonneg nonneg] at large
      have exact : inst.format.Representable (cycle / 2 - t) :=
        halfMachine.sub tMachine (by linarith) (by linarith)
      have kept : machine inst.format (cycle / 2 - t) = cycle / 2 - t :=
        nearest_of_representable exact
      rw [signed, kept]
      refine ⟨exact, ?_, sin_angle_half_sub positive.ne' t⟩
      rw [abs_le]
      constructor <;> linarith
  · exact ⟨tMachine, not_lt.mp ‹_›, rfl⟩

variable (inst fuel cycle) in
/-- `Sin` of an argument calls the library with a number of the first quarters. -/
structure SinReduces (x t : ℚ) : Prop where
  exact : inst.format.Representable t
  quarter : |t| ≤ cycle / 4
  same : Real.sin (angle cycle t) = Real.sin (angle cycle x)
  zero : x = 0 → sinCycle inst fuel x cycle = some (.ok (inst.format.round 0))
  call : x ≠ 0 → sinCycle inst fuel x cycle =
    some (.ok (inst.format.round (inst.auxSin (radians inst cycle t))))

theorem sinReduces (enough : passes inst.format < fuel)
    (cycleMachine : inst.format.Representable cycle) (positive : 0 < cycle)
    (quarter : inst.format.Representable (cycle / 4))
    (xMachine : inst.format.Representable x) :
    ∃ t, SinReduces inst fuel cycle x t := by
  obtain ⟨t, tMachine, half, sameSin, _, returns⟩ :=
    remainderThen_spec enough xMachine cycleMachine positive
  obtain ⟨exact, inQuarter, reflected⟩ :=
    reflect_spec quarter cycleMachine positive tMachine half
  refine ⟨reflect inst cycle t, exact, inQuarter, reflected.trans sameSin, ?_, ?_⟩
  · rintro rfl
    rw [sinCycle, if_neg positive.not_ge, if_pos rfl]
  · intro nonzero
    rw [sinCycle, if_neg positive.not_ge, if_neg nonzero, returns]

variable (inst fuel cycle) in
/-- `Cos` of an argument is the negated `Sin` of the argument less a quarter, rounded,
which is exact from an eighth of the cycle to a half. -/
structure CosReduces (x shifted t : ℚ) : Prop where
  rounded : shifted = inst.format.nearest (|x| - cycle / 4)
  unrounded : cycle / 8 ≤ |x| → |x| ≤ cycle / 2 → shifted = |x| - cycle / 4
  exact : inst.format.Representable t
  quarter : |t| ≤ cycle / 4
  sameSin : Real.sin (angle cycle t) = Real.sin (angle cycle shifted)
  same : shifted = |x| - cycle / 4 →
    -Real.sin (angle cycle t) = Real.cos (angle cycle x)
  zero : shifted = 0 →
    cosCycle inst fuel x cycle = some (.ok (inst.format.round 0).neg)
  call : shifted ≠ 0 → cosCycle inst fuel x cycle =
    some (.ok (inst.format.round (inst.auxSin (radians inst cycle t))).neg)

theorem cosReduces (enough : passes inst.format < fuel)
    (cycleMachine : inst.format.Representable cycle) (positive : 0 < cycle)
    (quarter : inst.format.Representable (cycle / 4))
    (xMachine : inst.format.Representable x) :
    ∃ shifted t, CosReduces inst fuel cycle x shifted t := by
  obtain ⟨quarterIs, _, _⟩ := cycle_parts quarter cycleMachine positive
  have computed : machine inst.format (|x| - machine inst.format (cycle * (1 / 4))) =
      inst.format.nearest (|x| - cycle / 4) := by
    rw [mul_comm, quarterIs]
    rfl
  have inRange : inst.format.Representable
      (inst.format.nearest (|x| - cycle / 4)) :=
    representable_nearest_sub xMachine.abs quarter (abs_nonneg x) (by linarith)
  obtain ⟨t, reduces⟩ := sinReduces enough cycleMachine positive quarter inRange
  refine ⟨inst.format.nearest (|x| - cycle / 4), t, rfl, ?_, reduces.exact,
    reduces.quarter, reduces.same, ?_, ?_, ?_⟩
  · intro lower upper
    exact nearest_of_representable
      (xMachine.abs.sub quarter (by linarith) (by linarith))
  · intro unrounded
    rw [reduces.same, unrounded, neg_sin_angle_sub_quarter positive.ne']
  · intro zero
    rw [cosCycle, computed, reduces.zero zero]
    rfl
  · intro nonzero
    rw [cosCycle, computed, reduces.call nonzero]
    rfl

variable (inst fuel cycle) in
/-- `Tan` and `Cot` raise `Constraint_Error` at the poles only.  Near its poles `Cot`
does not look at the cycle. -/
structure TangentsReduce (x t : ℚ) : Prop where
  exact : inst.format.Representable t
  half : |t| ≤ cycle / 2
  sameSin : Real.sin (angle cycle t) = Real.sin (angle cycle x)
  sameCos : Real.cos (angle cycle t) = Real.cos (angle cycle x)
  tanPole : tanCycle inst fuel x cycle = some (.error .constraintError) ↔
    Real.cos (angle cycle x) = 0
  tanZero : Real.sin (angle cycle x) = 0 →
    tanCycle inst fuel x cycle = some (.ok (inst.format.round 0))
  tan : Real.cos (angle cycle x) ≠ 0 → Real.sin (angle cycle x) ≠ 0 →
    tanCycle inst fuel x cycle =
      some (.ok ((sin inst (radians inst cycle t)).div
        (cos inst (radians inst cycle t))))
  cotPole : cotCycle inst fuel x cycle = some (.error .constraintError) ↔
    Real.sin (angle cycle x) = 0
  cotNear : Real.sin (angle cycle x) ≠ 0 → |t| < inst.sqrtEpsilon →
    cotCycle inst fuel x cycle = some (.ok (inst.format.round (1 / t)))
  cotZero : Real.cos (angle cycle x) = 0 → inst.sqrtEpsilon ≤ |t| →
    cotCycle inst fuel x cycle = some (.ok (inst.format.round 0))
  cot : Real.cos (angle cycle x) ≠ 0 → Real.sin (angle cycle x) ≠ 0 →
    inst.sqrtEpsilon ≤ |t| →
    cotCycle inst fuel x cycle =
      some (.ok ((cos inst (radians inst cycle t)).div
        (sin inst (radians inst cycle t))))

/-- The quotient at the number zero. -/
theorem tan_zero : (sin inst (radians inst cycle 0)).div
    (cos inst (radians inst cycle 0)) = inst.format.round 0 := by
  have zero : radians inst cycle 0 = 0 := by
    rw [radians, machine, machine, zero_div, nearest_zero, zero_mul, nearest_zero]
  have below : |(0 : ℚ)| < inst.sqrtEpsilon := by
    rw [abs_zero]
    exact inst.sqrtEpsilon_pos
  have zeroMachine : inst.format.Representable 0 := representable_zero
  have oneMachine : inst.format.Representable 1 := representable_one
  rw [zero, sin, cos, if_pos below, if_pos below, round_of_representable zeroMachine,
    round_of_representable oneMachine, Value.div, if_neg one_ne_zero, zero_div,
    round_of_representable]

theorem tangentsReduce (enough : passes inst.format < fuel)
    (cycleMachine : inst.format.Representable cycle) (positive : 0 < cycle)
    (quarter : inst.format.Representable (cycle / 4))
    (xMachine : inst.format.Representable x) :
    ∃ t, TangentsReduce inst fuel cycle x t := by
  obtain ⟨quarterIs, halfIs, _⟩ := cycle_parts quarter cycleMachine positive
  obtain ⟨t, exact, half, sameSin, sameCos, returns⟩ :=
    remainderThen_spec enough xMachine cycleMachine positive
  have sinZero := sin_angle_eq_zero_iff positive half
  have cosZero := cos_angle_eq_zero_iff positive half
  rw [sameSin] at sinZero
  rw [sameCos] at cosZero
  have apart : ¬(|t| = cycle / 4 ∧ |t| = cycle / 2) := by
    rintro ⟨first, second⟩
    linarith
  have atZero : x = 0 →
      Real.sin (angle cycle x) = 0 ∧ Real.cos (angle cycle x) ≠ 0 := by
    rintro rfl
    simp [angle]
  have tanIs : x ≠ 0 → tanCycle inst fuel x cycle = some (
      if |t| = cycle / 4 then .error .constraintError
      else if |t| = cycle / 2 then .ok (inst.format.round 0)
      else .ok ((sin inst (radians inst cycle t)).div
        (cos inst (radians inst cycle t)))) := by
    intro nonzero
    rw [tanCycle, if_neg positive.not_ge, if_neg nonzero, returns, quarterIs, halfIs]
  have cotIs : cotCycle inst fuel x cycle = some (
      if t = 0 ∨ |t| = cycle / 2 then .error .constraintError
      else if |t| < inst.sqrtEpsilon then .ok (inst.format.round (1 / t))
      else if |t| = cycle / 4 then .ok (inst.format.round 0)
      else .ok ((cos inst (radians inst cycle t)).div
        (sin inst (radians inst cycle t)))) := by
    rw [cotCycle, if_neg positive.not_ge, returns, quarterIs, halfIs]
  have tanAtZero : x = 0 →
      tanCycle inst fuel x cycle = some (.ok (inst.format.round 0)) := by
    rintro rfl
    rw [tanCycle, if_neg positive.not_ge, if_pos rfl]
  refine ⟨t, exact, half, sameSin, sameCos, ?_, ?_, ?_, ?_, ?_, ?_, ?_⟩
  · rcases eq_or_ne x 0 with atOrigin | nonzero
    · rw [tanAtZero atOrigin]
      simp [(atZero atOrigin).2]
    · rw [tanIs nonzero, cosZero]
      by_cases pole : |t| = cycle / 4
      · rw [if_pos pole]
        exact ⟨fun _ => pole, fun _ => rfl⟩
      · rw [if_neg pole]
        refine ⟨fun raised => ?_, fun turn => absurd turn pole⟩
        split at raised <;> simp at raised
  · intro isZero
    rcases eq_or_ne x 0 with atOrigin | nonzero
    · exact tanAtZero atOrigin
    · rw [tanIs nonzero]
      rcases sinZero.mp isZero with rfl | opposite
      · rw [if_neg (by rw [abs_zero]; linarith), if_neg (by rw [abs_zero]; linarith),
          tan_zero]
      · rw [if_neg fun quarterTurn => apart ⟨quarterTurn, opposite⟩, if_pos opposite]
  · intro cosNonzero sinNonzero
    rw [tanIs fun atOrigin => sinNonzero (atZero atOrigin).1,
      if_neg fun pole => cosNonzero (cosZero.mpr pole),
      if_neg fun opposite => sinNonzero (sinZero.mpr (Or.inr opposite))]
  · rw [cotIs, sinZero]
    by_cases pole : t = 0 ∨ |t| = cycle / 2
    · rw [if_pos pole]
      exact ⟨fun _ => pole, fun _ => rfl⟩
    · rw [if_neg pole]
      refine ⟨fun raised => ?_, fun turn => absurd turn pole⟩
      split at raised
      · simp at raised
      · split at raised <;> simp at raised
  · intro sinNonzero near
    rw [cotIs, if_neg fun pole => sinNonzero (sinZero.mpr pole), if_pos near]
  · intro isZero far
    have quarterTurn := cosZero.mp isZero
    have notPole : ¬(t = 0 ∨ |t| = cycle / 2) := by
      rintro (rfl | opposite)
      · rw [abs_zero] at quarterTurn
        linarith
      · exact apart ⟨quarterTurn, opposite⟩
    rw [cotIs, if_neg notPole, if_neg far.not_gt, if_pos quarterTurn]
  · intro cosNonzero sinNonzero far
    rw [cotIs, if_neg fun pole => sinNonzero (sinZero.mpr pole), if_neg far.not_gt,
      if_neg fun quarterTurn => cosNonzero (cosZero.mpr quarterTurn)]

/-- Of a cycle whose quarter is a machine number, `Sin`, `Cos`, `Tan` and `Cot` are
computed at numbers with the same place on the circle, which are found without
rounding; the others are refused. -/
theorem cycles (enough : passes inst.format < fuel)
    (cycleMachine : inst.format.Representable cycle)
    (quarter : inst.format.Representable (cycle / 4))
    (xMachine : inst.format.Representable x) :
    (0 < cycle →
      (∃ t, SinReduces inst fuel cycle x t) ∧
      (∃ shifted t, CosReduces inst fuel cycle x shifted t) ∧
      ∃ t, TangentsReduce inst fuel cycle x t) ∧
    (cycle ≤ 0 → ∀ function ∈ [sinCycle, cosCycle, tanCycle, cotCycle],
      function inst fuel x cycle = some (.error .argumentError)) := by
  constructor
  · intro positive
    exact ⟨sinReduces enough cycleMachine positive quarter xMachine,
      cosReduces enough cycleMachine positive quarter xMachine,
      tangentsReduce enough cycleMachine positive quarter xMachine⟩
  · intro notPositive
    simp [sinCycle, cosCycle, tanCycle, cotCycle, notPositive, Except.map]

/-- A right angle in degrees. -/
theorem cycles_degrees :
    ((0 : ℚ) < 360 →
      (∃ t, SinReduces sample 2099 360 90 t) ∧
      (∃ shifted t, CosReduces sample 2099 360 90 shifted t) ∧
      ∃ t, TangentsReduce sample 2099 360 90 t) ∧
    ((360 : ℚ) ≤ 0 → ∀ function ∈ [sinCycle, cosCycle, tanCycle, cotCycle],
      function sample 2099 90 360 = some (.error .argumentError)) := by
  have machine : ∀ value : ℤ, |value| < 512 → sample.format.Representable value := by
    intro value small
    apply representable_intCast
    · exact small.trans (by decide)
    · calc |(value : ℚ)| < 512 := by exact_mod_cast small
        _ = 2 ^ (9 : ℤ) := by norm_num
        _ < 2 ^ (1024 : ℤ) := zpow_lt_zpow_right₀ (by norm_num) (by decide)
  have right : sample.format.Representable (360 / 4) := by
    have whole := machine 90 (by decide)
    norm_num at whole ⊢
    exact whole
  exact cycles (by decide) (machine 360 (by decide)) right (machine 90 (by decide))

end Reductions

end ElementaryFunctions

end AdacHybridMsp430
