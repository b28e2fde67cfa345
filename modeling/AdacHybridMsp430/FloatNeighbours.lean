import AdacHybridMsp430.FloatDecompositions

/-!
# Neighbours of machine numbers

`Succ` and `Pred` add and subtract the last place of a number, which
`Gradual_Scaling` bounds by the least positive machine number.  At a power of
two the last place on the side of zero is half as large.
-/

namespace AdacHybridMsp430

namespace FloatAttributes

open BinaryFloats BoundedLoops

variable {format : Format}

section Halving

/-- The least denormal is the power that cannot be halved. -/
theorem machine_half {exponent : ℤ} (lower : format.minExponent ≤ exponent)
    (upper : exponent ≤ format.maxExponent) :
    machine format (2 ^ exponent / 2) =
      if exponent = format.minExponent then 0 else 2 ^ (exponent - 1) := by
  unfold machine
  split
  · rename_i least
    rw [least]
    exact nearest_half_minExponent
  · apply nearest_half_two_zpow
    · omega
    · exact upper

theorem machineEmin_bounds (normal : format.minExponent + format.precision ≤ 0) :
    format.minExponent < machineEmin format ∧
      machineEmin format ≤ format.maxExponent ∧
      (machineEmin format - format.minExponent).toNat ≤ passes format := by
  have precise := format.precision_pos
  have maximum := format.maxExponent_pos
  unfold machineEmin passes
  omega

/-- The variables of `Gradual_Scaling` hold the power from which the exponent is
left to be subtracted. -/
structure Halved (format : Format) (adjustment : ℤ) (state : Gradual) : Prop where
  y : state.y = 2 ^ (adjustment - state.ex)
  y1 : state.y1 = state.y
  lower : format.minExponent ≤ adjustment - state.ex
  upper : adjustment - state.ex ≤ format.maxExponent
  left : state.ex ≤ 0

theorem Halved.next {adjustment : ℤ} {state : Gradual}
    (halved : Halved format adjustment state) (more : state.ex < 0)
    (notLeast : adjustment - state.ex ≠ format.minExponent) :
    Halved format adjustment
      ⟨2 ^ (adjustment - state.ex - 1), 2 ^ (adjustment - state.ex - 1),
        state.ex + 1⟩ := by
  obtain ⟨_, _, lower, upper, _⟩ := halved
  refine ⟨?_, rfl, ?_, ?_, ?_⟩
  · rw [sub_sub]
  · dsimp only
    omega
  · dsimp only
    omega
  · dsimp only
    omega

/-- A pass ends with the power, or with the least one, or halves the power. -/
theorem Halved.pass {adjustment : ℤ} {state : Gradual}
    (halved : Halved format adjustment state) :
    gradualPass format state = .inl (2 ^ max adjustment format.minExponent) ∨
      ∃ next, gradualPass format state = .inr next ∧
        Halved format adjustment next ∧ next.ex = state.ex + 1 ∧
        format.minExponent < adjustment - state.ex := by
  have next := halved.next
  obtain ⟨y, y1, lower, upper, left⟩ := halved
  unfold gradualPass
  rw [y1, y, machine_half lower upper]
  by_cases more : state.ex < 0
  · rw [if_pos more]
    by_cases least : adjustment - state.ex = format.minExponent
    · left
      have exponent : max adjustment format.minExponent = format.minExponent := by
        omega
      rw [if_pos least, least, exponent]
      exact if_pos rfl
    · right
      rw [if_neg least]
      have nonzero : (2 : ℚ) ^ (adjustment - state.ex - 1) ≠ 0 := by positivity
      exact ⟨_, if_neg nonzero, next more least, rfl, by omega⟩
  · left
    have done : adjustment - state.ex = adjustment := by
      omega
    have exponent : max adjustment format.minExponent = adjustment := by
      omega
    rw [if_neg more, done, exponent]

theorem gradualLoop_spec {adjustment : ℤ} {fuel : ℕ} {state : Gradual}
    (halved : Halved format adjustment state)
    (enough : (adjustment - state.ex - format.minExponent).toNat < fuel) :
    loop (gradualPass format) fuel state =
      some (2 ^ max adjustment format.minExponent) := by
  have loops : ∃ result, loop (gradualPass format) fuel state = some result ∧
      result = 2 ^ max adjustment format.minExponent := by
    apply loop_spec (Halved format adjustment) _
      (fun state => (adjustment - state.ex - format.minExponent).toNat) _ _
      halved enough
    · intro state result halved ends
      rcases halved.pass with done | ⟨next, goesOn, _⟩
      · rw [done] at ends
        exact (Sum.inl.inj ends).symm
      · rw [goesOn] at ends
        cases ends
    · intro state next halved goesOn
      rcases halved.pass with done | ⟨other, otherIs, kept, counted, more⟩
      · rw [done] at goesOn
        cases goesOn
      · rw [otherIs] at goesOn
        obtain rfl : other = next := Sum.inr.inj goesOn
        refine ⟨kept, ?_⟩
        omega
  obtain ⟨result, ends, rfl⟩ := loops
  exact ends

/-- `Gradual_Scaling` has the power, or the least positive machine number. -/
theorem gradualScaling_spec
    (normal : format.minExponent + format.precision ≤ 0) {adjustment : ℤ}
    (upper : adjustment ≤ format.maxExponent) {fuel : ℕ}
    (enough : passes format < fuel) :
    gradualScaling format fuel adjustment =
      some (2 ^ max adjustment format.minExponent) := by
  obtain ⟨eminLower, eminUpper, eminPasses⟩ := machineEmin_bounds normal
  have minimum := format.minExponent_nonpos
  have maximum := format.maxExponent_pos
  unfold gradualScaling
  split
  · rename_i small
    have back : adjustment - (adjustment - machineEmin format) =
        machineEmin format := by
      ring
    apply gradualLoop_spec
    · refine ⟨?_, rfl, ?_, ?_, ?_⟩
      · rw [back]
      · dsimp only
        omega
      · dsimp only
        omega
      · dsimp only
        omega
    · dsimp only
      omega
  · rename_i large
    have size : adjustment.natAbs < fuel := by
      unfold passes at enough
      omega
    obtain ⟨scaled, scales, value, _⟩ := scaling_spec 1 size
    have exponent : max adjustment format.minExponent = adjustment := by
      omega
    rw [scales, Option.map_some, value, one_mul, exponent]

/-- The loop of `Succ` ends with the least positive machine number. -/
theorem denormalLoop_spec {exponent : ℤ} (lower : format.minExponent ≤ exponent)
    (upper : exponent ≤ format.maxExponent) {fuel : ℕ}
    (enough : (exponent - format.minExponent).toNat < fuel) :
    loop (denormalPass format) fuel (2 ^ exponent) =
      some (2 ^ format.minExponent) := by
  induction fuel generalizing exponent with
  | zero => omega
  | succ fuel ih =>
      unfold loop denormalPass
      dsimp only
      rw [machine_half lower upper]
      by_cases least : exponent = format.minExponent
      · rw [if_pos least, if_pos rfl, least]
      · have nonzero : (2 : ℚ) ^ (exponent - 1) ≠ 0 := by positivity
        rw [if_neg least, if_neg nonzero]
        apply ih
        · omega
        · omega
        · omega

end Halving

section Zones

/-- The last place on the side that a number grows to. -/
theorem Normalized.growing {x frac : ℚ} {expo : ℤ}
    (normalized : Normalized x frac expo) (notPower : frac ≠ -1 / 2) :
    Growing (expo - 1) x := by
  have power : (0 : ℚ) < 2 ^ expo := by positivity
  have lower := normalized.two_zpow_le
  have upper := normalized.lt_two_zpow
  rw [Growing, sub_add_cancel]
  rcases le_total 0 x with nonneg | nonpos
  · left
    rw [abs_of_nonneg nonneg] at lower upper
    exact ⟨lower, upper⟩
  · right
    rw [abs_of_nonpos nonpos] at lower upper
    refine ⟨lt_of_le_of_ne lower ?_, upper.le⟩
    intro same
    apply notPower
    apply mul_right_cancel₀ power.ne'
    rw [zpow_sub_one₀ (by norm_num)] at same
    linarith [normalized.exact]

/-- A negative power of two leaves its binade by growing. -/
theorem Normalized.growing_of_power {x frac : ℚ} {expo : ℤ}
    (normalized : Normalized x frac expo) (power : frac = -1 / 2) :
    Growing (expo - 2) x := by
  have exact := normalized.exact
  have half : -x = 2 ^ (expo - 2 + 1) := by
    rw [exact, power, show expo - 2 + 1 = expo - 1 by ring,
      zpow_sub_one₀ (by norm_num)]
    ring
  right
  rw [half]
  exact ⟨zpow_lt_zpow_right₀ (by norm_num) (by omega), le_rfl⟩

end Zones

section Neighbours

theorem in_range {x : ℚ} (representable : format.Representable x) :
    ¬ (x < first format ∨ last format < x) := by
  obtain ⟨notAbove, notBelow⟩ := safe_of_representable representable
  exact not_or.mpr ⟨notBelow, notAbove⟩

/-- The value of `Gradual_Scaling` is the last place of a binade. -/
theorem gradualScaling_spacing
    (normal : format.minExponent + format.precision ≤ 0) {bound : ℤ}
    (upper : bound < format.maxExponent) {fuel : ℕ}
    (enough : passes format < fuel) :
    gradualScaling format fuel (bound + 1 - machineMantissa format) =
      some (2 ^ format.spacing bound) := by
  have below : bound + 1 - machineMantissa format ≤ format.maxExponent := by
    have precise := format.precision_pos
    unfold machineMantissa
    omega
  rw [gradualScaling_spec normal below enough, max_comm]
  rfl

/-- The last places that `Succ` and `Pred` choose for a fraction. -/
theorem lastPlace_spec (normal : format.minExponent + format.precision ≤ 0)
    {x : ℚ} (representable : format.Representable x)
    {frac : ℚ} {expo : ℤ} (normalized : Normalized x frac expo)
    {fuel : ℕ} (enough : passes format < fuel) :
    ∃ bound, Growing bound x ∧
      (frac = -1 / 2 →
        gradualScaling format fuel (expo - machineMantissa format - 1) =
          some (2 ^ format.spacing bound)) ∧
      (frac ≠ -1 / 2 →
        gradualScaling format fuel (expo - machineMantissa format) =
          some (2 ^ format.spacing bound)) := by
  have upper := normalized.expo_le representable
  by_cases power : frac = -1 / 2
  · refine ⟨expo - 2, normalized.growing_of_power power, fun _ => ?_,
      fun notPower => absurd power notPower⟩
    have place : gradualScaling format fuel (expo - 2 + 1 - machineMantissa format) =
        some (2 ^ format.spacing (expo - 2)) :=
      gradualScaling_spacing normal (by omega) enough
    rw [← place]
    congr 1
    ring
  · refine ⟨expo - 1, normalized.growing power, fun isPower =>
      absurd isPower power, fun _ => ?_⟩
    have place : gradualScaling format fuel (expo - 1 + 1 - machineMantissa format) =
        some (2 ^ format.spacing (expo - 1)) :=
      gradualScaling_spacing normal (by omega) enough
    rw [← place, sub_add_cancel]

theorem isLeast_minExponent :
    IsLeast {next | format.Representable next ∧ 0 < next}
      (2 ^ format.minExponent) := by
  have minimum := format.minExponent_nonpos
  have maximum := format.maxExponent_pos
  refine ⟨⟨representable_two_zpow le_rfl (by omega), by positivity⟩, ?_⟩
  rintro next ⟨representable, positive⟩
  have le := representable.le_abs positive.ne'
  rwa [abs_of_pos positive] at le

theorem succ_zero (normal : format.minExponent + format.precision ≤ 0)
    {fuel : ℕ} (enough : passes format < fuel) :
    succ format fuel 0 = some (.ok (2 ^ format.minExponent)) := by
  obtain ⟨eminLower, eminUpper, eminPasses⟩ := machineEmin_bounds normal
  have loops : loop (denormalPass format) fuel (2 ^ machineEmin format) =
      some (2 ^ format.minExponent) :=
    denormalLoop_spec eminLower.le eminUpper (by omega)
  rw [succ, if_pos rfl, loops]
  rfl

/-- `Succ` returns the least machine number above. -/
theorem succ_spec (normal : format.minExponent + format.precision ≤ 0)
    {x : ℚ} (representable : format.Representable x) (notLast : x ≠ last format)
    {fuel : ℕ} (enough : passes format < fuel) :
    ∃ next, succ format fuel x = some (.ok next) ∧
      IsLeast {next | format.Representable next ∧ x < next} next := by
  rcases eq_or_ne x 0 with rfl | nonzero
  · exact ⟨_, succ_zero normal enough, isLeast_minExponent⟩
  have maximum := format.maxExponent_pos
  obtain ⟨parts, ends, normalized, _⟩ :=
    decompose_spec representable nonzero enough
  obtain ⟨bound, growing, ofPower, otherwise⟩ :=
    lastPlace_spec normal representable normalized enough
  refine ⟨x + 2 ^ format.spacing bound, ?_,
    growing.isLeast (by omega) representable notLast⟩
  rw [succ, if_neg nonzero, if_neg notLast, if_neg (in_range representable), ends,
    Option.bind_eq_bind, Option.bind_some]
  by_cases power : parts.frac = -1 / 2
  · rw [if_pos power, ofPower power]
    rfl
  · rw [if_neg power, otherwise power]
    rfl

theorem Normalized.neg {x frac : ℚ} {expo : ℤ}
    (normalized : Normalized x frac expo) : Normalized (-x) (-frac) expo where
  exact := by rw [normalized.exact, neg_mul]
  lower := by rw [abs_neg]; exact normalized.lower
  upper := by rw [abs_neg]; exact normalized.upper
  sign := by rw [Left.sign_neg, Left.sign_neg, normalized.sign]

/-- `Pred` returns the greatest machine number below. -/
theorem pred_spec (normal : format.minExponent + format.precision ≤ 0)
    {x : ℚ} (representable : format.Representable x)
    (notFirst : x ≠ first format) {fuel : ℕ} (enough : passes format < fuel) :
    ∃ previous, pred format fuel x = some (.ok previous) ∧
      IsGreatest {previous | format.Representable previous ∧ previous < x}
        previous := by
  rcases eq_or_ne x 0 with rfl | nonzero
  · refine ⟨-2 ^ format.minExponent, ?_, ?_⟩
    · rw [pred, if_pos rfl, succ_zero normal enough]
      rfl
    · rw [← isLeast_neg_iff, neg_neg, neg_zero]
      exact isLeast_minExponent
  have maximum := format.maxExponent_pos
  have notGreatest : -x ≠ format.greatest := by
    intro greatest
    exact notFirst (neg_eq_iff_eq_neg.mp greatest)
  obtain ⟨parts, ends, normalized, _⟩ :=
    decompose_spec representable nonzero enough
  obtain ⟨bound, growing, ofPower, otherwise⟩ :=
    lastPlace_spec normal representable.neg normalized.neg enough
  rw [neg_div, neg_inj] at ofPower
  rw [neg_div, Ne, neg_inj] at otherwise
  refine ⟨x - 2 ^ format.spacing bound, ?_, ?_⟩
  · rw [pred, if_neg nonzero, if_neg notFirst, if_neg (in_range representable),
      ends, Option.bind_eq_bind, Option.bind_some]
    by_cases power : parts.frac = 1 / 2
    · rw [if_pos power, ofPower power]
      rfl
    · rw [if_neg power, otherwise power]
      rfl
  · rw [← isLeast_neg_iff, neg_sub, sub_eq_add_neg, add_comm]
    exact growing.isLeast (by omega) representable.neg notGreatest

/-- In both packages `Succ` and `Pred` return the neighbours of every machine
number that has them, and each returns from the neighbour of the other. -/
theorem neighbours (package : Package) {fuel : ℕ}
    (enough : passes package.format < fuel) {x : ℚ}
    (representable : package.format.Representable x) :
    (x ≠ last package.format →
      ∃ next, succ package.format fuel x = some (.ok next) ∧
        IsLeast {next | package.format.Representable next ∧ x < next} next ∧
        pred package.format fuel next = some (.ok x)) ∧
    (x ≠ first package.format →
      ∃ previous, pred package.format fuel x = some (.ok previous) ∧
        IsGreatest {previous | package.format.Representable previous ∧ previous < x}
          previous ∧
        succ package.format fuel previous = some (.ok x)) := by
  have normal := package_normal package
  constructor
  · intro notLast
    obtain ⟨next, succIs, least⟩ := succ_spec normal representable notLast enough
    have greatest := isGreatest_of_isLeast representable least
    have notFirst : next ≠ first package.format := by
      rintro rfl
      have lower := (abs_le.mp representable.abs_le_greatest).1
      exact absurd least.1.2 (not_lt.mpr lower)
    obtain ⟨previous, predIs, isPrevious⟩ :=
      pred_spec normal least.1.1 notFirst enough
    rw [isPrevious.unique greatest] at predIs
    exact ⟨next, succIs, least, predIs⟩
  · intro notFirst
    obtain ⟨previous, predIs, greatest⟩ :=
      pred_spec normal representable notFirst enough
    have least := isLeast_of_isGreatest representable greatest
    have notLast : previous ≠ last package.format := by
      rintro rfl
      have upper := (abs_le.mp representable.abs_le_greatest).2
      exact absurd greatest.1.2 (not_lt.mpr upper)
    obtain ⟨next, succIs, isNext⟩ :=
      succ_spec normal greatest.1.1 notLast enough
    rw [isNext.unique least] at succIs
    exact ⟨previous, predIs, greatest, succIs⟩

/-- The neighbours of one, on the border of two binades. -/
theorem neighbours_one :
    (1 ≠ last Package.fatFlt.format →
      ∃ next, succ Package.fatFlt.format 278 1 = some (.ok next) ∧
        IsLeast {next | Package.fatFlt.format.Representable next ∧ 1 < next} next ∧
        pred Package.fatFlt.format 278 next = some (.ok 1)) ∧
    (1 ≠ first Package.fatFlt.format →
      ∃ previous, pred Package.fatFlt.format 278 1 = some (.ok previous) ∧
        IsGreatest
          {previous | Package.fatFlt.format.Representable previous ∧ previous < 1}
          previous ∧
        succ Package.fatFlt.format 278 previous = some (.ok 1)) := by
  apply neighbours
  · decide
  · exact representable_one

end Neighbours

end FloatAttributes

end AdacHybridMsp430
