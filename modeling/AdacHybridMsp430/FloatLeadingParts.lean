import AdacHybridMsp430.FloatRoundings

/-!
# Leading digits of machine numbers

`Leading_Part` scales a number until the digits to keep are in front of the
point, truncates it, and scales it back.
-/

namespace AdacHybridMsp430

namespace FloatAttributes

open BinaryFloats

section Model

variable (format : Format)

/-- `Leading_Part`, which returns a value or raises `Constraint_Error`, without
a message.  The products are those of `Exponent` and of both scalings. -/
def leadingPart (fuel : ℕ) (x : ℚ) (radixDigits : ℤ) :
    Option (Except String Computed) :=
  if machineMantissa format ≤ radixDigits then
    some (.ok ⟨x, []⟩)
  else if radixDigits ≤ 0 then
    some (.error "")
  else do
    let parts ← decompose format fuel x
    let l := parts.expo - radixDigits
    let scaled ← scaling fuel x (-l)
    let z ← scaling fuel (truncation format scaled.value) l
    return .ok ⟨z.value, z.products ++ scaled.products ++ parts.products⟩

end Model

variable {format : Format}

section Leading

/-- Scaling passes machine numbers only on the way between two of them. -/
theorem representable_between {x product : ℚ} {adjustment e : ℤ}
    (start : format.Representable x)
    (stop : format.Representable (x * 2 ^ adjustment))
    (between : e ∈ Set.uIcc 0 adjustment)
    (exact : product * 2 ^ e = x * 2 ^ adjustment) :
    format.Representable product := by
  rcases Set.mem_uIcc.mp between with ⟨nonneg, le⟩ | ⟨le, nonpos⟩
  · have back : product * 2 ^ (e - adjustment) = x := by
      rw [zpow_sub₀ (by norm_num), ← mul_div_assoc, exact]
      field_simp
    apply start.of_scaled back
    · obtain ⟨_, _, _, _, _, range⟩ := stop
      refine lt_of_le_of_lt ?_ range
      rw [← exact, abs_mul, abs_of_pos (show (0 : ℚ) < 2 ^ e by positivity)]
      exact le_mul_of_one_le_right (abs_nonneg product)
        (one_le_zpow₀ (by norm_num) nonneg)
    · left
      omega
  · apply stop.of_scaled exact
    · obtain ⟨_, _, _, _, _, range⟩ := start
      refine lt_of_le_of_lt ?_ range
      have forth : product * 2 ^ (e - adjustment) = x := by
        rw [zpow_sub₀ (by norm_num), ← mul_div_assoc, exact]
        field_simp
      rw [← forth, abs_mul,
        abs_of_pos (show (0 : ℚ) < 2 ^ (e - adjustment) by positivity)]
      exact le_mul_of_one_le_right (abs_nonneg product)
        (one_le_zpow₀ (by norm_num) (by omega))
    · exact Or.inl nonpos

/-- The numbers up to a bound with so many binary digits. -/
def Leads (digits : ℤ) (bound : ℚ) : Set ℚ :=
  {value | value ≤ bound ∧
    ∃ significand exponent : ℤ, value = significand * 2 ^ exponent ∧
      |(significand : ℚ)| < 2 ^ digits}

theorem abs_truncate (x : ℚ) : |(truncate x : ℚ)| = ⌊|x|⌋ := by
  have nonneg : (0 : ℚ) ≤ ⌊|x|⌋ := by
    exact_mod_cast Int.floor_nonneg.mpr (abs_nonneg x)
  unfold truncate
  split
  · rename_i positive
    rw [abs_of_nonneg positive] at nonneg ⊢
    exact abs_of_nonneg nonneg
  · rename_i negative
    rw [abs_of_neg (not_le.mp negative), Int.floor_neg] at nonneg ⊢
    push_cast at nonneg ⊢
    rw [abs_of_nonpos (by linarith)]

/-- Only numbers below one lose their sign. -/
theorem sign_truncate {x : ℚ} (large : 1 ≤ |x|) :
    SignType.sign (truncate x : ℚ) = SignType.sign x := by
  unfold truncate
  split
  · rename_i nonneg
    rw [abs_of_nonneg nonneg] at large
    have positive : (0 : ℚ) < ⌊x⌋ := by
      exact_mod_cast Int.floor_pos.mpr large
    rw [sign_pos positive, sign_pos (by linarith)]
  · rename_i notNonneg
    have negative := not_le.mp notNonneg
    rw [abs_of_neg negative] at large
    have le : ⌈x⌉ ≤ -1 := by
      apply Int.ceil_le.mpr
      push_cast
      linarith
    have below : (⌈x⌉ : ℚ) < 0 := by
      exact_mod_cast (show ⌈x⌉ < 0 by omega)
    rw [sign_neg below, sign_neg negative]

/-- The integer part of a number with the given digits in front of the point,
scaled back, has its leading digits. -/
theorem isGreatest_leads {x : ℚ} {digits l : ℤ} (positive : 0 < digits)
    (lower : 2 ^ (digits - 1) ≤ |x|) (upper : |x| < 2 ^ digits) :
    IsGreatest (Leads digits (|x| * 2 ^ l)) (⌊|x|⌋ * 2 ^ l) := by
  have power : (0 : ℚ) < 2 ^ l := by positivity
  have floorLe := Int.floor_le |x|
  have nonneg : (0 : ℚ) ≤ ⌊|x|⌋ := by
    exact_mod_cast Int.floor_nonneg.mpr (abs_nonneg x)
  constructor
  · refine ⟨mul_le_mul_of_nonneg_right floorLe power.le, ⌊|x|⌋, l, rfl, ?_⟩
    rw [abs_of_nonneg nonneg]
    exact floorLe.trans_lt upper
  · rintro value ⟨valueLe, significand, exponent, rfl, size⟩
    rcases le_or_gt l exponent with multiple | below
    · obtain ⟨factor, eq⟩ := exists_multiple_of_le significand multiple
      rw [eq] at valueLe ⊢
      have le : (factor : ℚ) ≤ |x| := le_of_mul_le_mul_right valueLe power
      have le : (factor : ℚ) ≤ ⌊|x|⌋ := by
        exact_mod_cast Int.le_floor.mpr le
      exact mul_le_mul_of_nonneg_right le power.le
    · -- a smaller last place leaves the first digit only
      have unit : (2 : ℚ) ^ (digits - 1) ≤ ⌊|x|⌋ := by
        obtain ⟨bits, rfl⟩ : ∃ bits : ℕ, digits = bits + 1 :=
          ⟨(digits - 1).toNat, by omega⟩
        rw [add_sub_cancel_right, zpow_natCast] at lower ⊢
        have le : (2 : ℤ) ^ bits ≤ ⌊|x|⌋ := by
          apply Int.le_floor.mpr
          push_cast
          exact lower
        exact_mod_cast le
      calc (significand : ℚ) * 2 ^ exponent ≤ 2 ^ digits * 2 ^ exponent :=
            mul_le_mul_of_nonneg_right ((le_abs_self _).trans size.le)
              (by positivity)
        _ = 2 ^ (digits + exponent) := (zpow_add₀ (by norm_num) _ _).symm
        _ ≤ 2 ^ (digits - 1 + l) := zpow_le_zpow_right₀ (by norm_num) (by omega)
        _ = 2 ^ (digits - 1) * 2 ^ l := zpow_add₀ (by norm_num) _ _
        _ ≤ ⌊|x|⌋ * 2 ^ l := mul_le_mul_of_nonneg_right unit power.le

/-- What is left of a machine number is one, also if it has no normal exponent. -/
theorem representable_leads {x scaled : ℚ} {digits l : ℤ}
    (representable : format.Representable x) (exact : scaled * 2 ^ l = x)
    (upper : |scaled| < 2 ^ digits) (fewer : digits < format.precision) :
    format.Representable (truncate scaled * 2 ^ l) := by
  have power : (0 : ℚ) < 2 ^ l := by positivity
  by_cases place : format.minExponent ≤ l
  · refine ⟨truncate scaled, l, rfl, ?_, place, ?_⟩
    · have less : |(truncate scaled : ℚ)| < 2 ^ (format.precision : ℤ) := by
        rw [abs_truncate]
        calc (⌊|scaled|⌋ : ℚ) ≤ |scaled| := Int.floor_le _
          _ < 2 ^ digits := upper
          _ ≤ 2 ^ (format.precision : ℤ) :=
              zpow_le_zpow_right₀ (by norm_num) fewer.le
      rw [zpow_natCast] at less
      exact_mod_cast less
    · obtain ⟨_, _, _, _, _, range⟩ := representable
      refine lt_of_le_of_lt ?_ range
      rw [← exact, abs_mul, abs_mul, abs_truncate]
      exact mul_le_mul_of_nonneg_right (Int.floor_le _) (abs_nonneg _)
  · have integral : ∃ n : ℤ, scaled = n := by
      obtain ⟨n, eq⟩ := representable.exists_multiple
      obtain ⟨m, multiple⟩ := exists_multiple_of_le n (not_le.mp place).le
      refine ⟨m, mul_right_cancel₀ power.ne' ?_⟩
      rw [exact, eq, multiple]
    obtain ⟨n, rfl⟩ := integral
    rwa [truncate_intCast, exact]

theorem decompose_zero (fuel : ℕ) : decompose format fuel 0 = some ⟨0, 0, []⟩ := by
  have same : machine format 0 = 0 := nearest_of_representable representable_zero
  unfold decompose
  dsimp only
  rw [same, if_pos rfl]

theorem leadingPart_spec (normal : format.minExponent + format.precision ≤ 0)
    (wide : (format.precision : ℤ) < format.maxExponent) {x : ℚ}
    (representable : format.Representable x) (nonzero : x ≠ 0) {radixDigits : ℤ}
    (positive : 0 < radixDigits) (fewer : radixDigits < format.precision) {fuel : ℕ}
    (enough : passes format < fuel) :
    ∃ part, leadingPart format fuel x radixDigits = some (.ok part) ∧
      format.Representable part.value ∧
      SignType.sign part.value = SignType.sign x ∧
      IsGreatest (Leads radixDigits |x|) |part.value| ∧
      ∀ product ∈ part.products, format.Representable product := by
  obtain ⟨⟨frac, expo, products⟩, decomposes, normalized, machineProducts⟩ :=
    decompose_spec representable nonzero enough
  dsimp only at normalized machineProducts
  have expoLower := normalized.lt_expo representable nonzero
  have expoUpper := normalized.expo_le representable
  have enoughL : (expo - radixDigits).natAbs < fuel := by
    rw [passes] at enough
    omega
  obtain ⟨scaled, scales, scaledIs, scaledProducts⟩ :=
    scaling_spec x (show (-(expo - radixDigits)).natAbs < fuel by omega)
  have power : (0 : ℚ) < 2 ^ (expo - radixDigits) := by positivity
  have exact : scaled.value * 2 ^ (expo - radixDigits) = x := by
    rw [scaledIs, mul_assoc, ← zpow_add₀ (by norm_num), neg_add_cancel, zpow_zero,
      mul_one]
  have absExact : |scaled.value| * 2 ^ (expo - radixDigits) = |x| := by
    rw [← exact, abs_mul, abs_of_pos power]
  have lower : 2 ^ (radixDigits - 1) ≤ |scaled.value| := by
    apply le_of_mul_le_mul_right _ power
    rw [absExact, ← zpow_add₀ (by norm_num),
      show radixDigits - 1 + (expo - radixDigits) = expo - 1 by ring]
    exact normalized.two_zpow_le
  have upper : |scaled.value| < 2 ^ radixDigits := by
    apply lt_of_mul_lt_mul_right _ power.le
    rw [absExact, ← zpow_add₀ (by norm_num), add_sub_cancel]
    exact normalized.lt_two_zpow
  have scaledMachine : format.Representable scaled.value := by
    apply representable.of_scaled exact
    · exact upper.trans_le (zpow_le_zpow_right₀ (by norm_num) (by omega))
    · right
      refine le_trans ?_ lower
      exact zpow_le_zpow_right₀ (by norm_num) (by omega)
  obtain ⟨z, scalesBack, zIs, zProducts⟩ :=
    scaling_spec (truncate scaled.value) enoughL
  have zMachine := representable_leads representable exact upper fewer
  rw [← zIs] at zMachine
  refine ⟨⟨z.value, z.products ++ scaled.products ++ products⟩, ?_, zMachine, ?_,
    ?_, ?_⟩
  · unfold leadingPart
    rw [if_neg (by unfold machineMantissa; omega), if_neg positive.not_ge, decomposes,
      Option.bind_eq_bind, Option.bind_some]
    dsimp only
    rw [scales, Option.bind_eq_bind, Option.bind_some,
      truncation_spec wide scaledMachine, scalesBack]
    rfl
  · have one : 1 ≤ |scaled.value| :=
      (one_le_zpow₀ (by norm_num) (by omega)).trans lower
    rw [zIs, ← exact, sign_mul, sign_mul, sign_truncate one]
  · have greatest := isGreatest_leads (l := expo - radixDigits) positive lower upper
    rw [absExact] at greatest
    rw [zIs, abs_mul, abs_truncate, abs_of_pos power]
    exact greatest
  · intro product member
    rw [List.mem_append, List.mem_append] at member
    rcases member with (back | forth) | first
    · obtain ⟨e, between, eq⟩ := zProducts product back
      apply representable_between _ _ between eq
      · exact representable_around wide scaledMachine (abs_sub_truncate_lt _)
      · rwa [← zIs]
    · obtain ⟨e, between, eq⟩ := scaledProducts product forth
      apply representable_between representable _ between eq
      rwa [← scaledIs]
    · exact normalized.representable_of_abs normal representable
        (machineProducts product first)

theorem leadingPart_zero (wide : (format.precision : ℤ) < format.maxExponent)
    {radixDigits : ℤ} (positive : 0 < radixDigits)
    (fewer : radixDigits < format.precision) (fuel : ℕ) :
    leadingPart format fuel 0 radixDigits = some (.ok ⟨0, []⟩) := by
  have truncated : truncation format 0 = 0 := by
    rw [truncation_spec wide representable_zero]
    simp [truncate]
  have scaled : ∀ l, scaling fuel 0 l = some ⟨0, []⟩ := fun _ => if_pos (Or.inl rfl)
  unfold leadingPart
  rw [if_neg (by unfold machineMantissa; omega), if_neg positive.not_ge,
    decompose_zero, Option.bind_eq_bind, Option.bind_some]
  dsimp only
  rw [scaled, Option.bind_eq_bind, Option.bind_some]
  dsimp only
  rw [truncated, scaled]
  rfl

theorem self_mem_leads {x : ℚ} (representable : format.Representable x)
    {digits : ℤ} (enough : format.precision ≤ digits) :
    IsGreatest (Leads digits |x|) |x| := by
  obtain ⟨significand, exponent, eq, size, _, _⟩ := representable.abs
  refine ⟨⟨le_rfl, significand, exponent, eq, ?_⟩, fun value leads => leads.1⟩
  have less : |(significand : ℚ)| < 2 ^ (format.precision : ℤ) := by
    rw [zpow_natCast]
    exact_mod_cast size
  exact less.trans_le (zpow_le_zpow_right₀ (by norm_num) enough)

end Leading

section Packages

/-- `Leading_Part` keeps the given number of leading digits of every machine
number, with its sign, through machine numbers only, and raises the exception for
no digits. -/
theorem leadingParts (package : Package) {fuel : ℕ}
    (enough : passes package.format < fuel) {x : ℚ}
    (representable : package.format.Representable x) (radixDigits : ℤ) :
    (radixDigits ≤ 0 →
      leadingPart package.format fuel x radixDigits = some (.error "")) ∧
    (0 < radixDigits →
      ∃ part, leadingPart package.format fuel x radixDigits = some (.ok part) ∧
        package.format.Representable part.value ∧
        SignType.sign part.value = SignType.sign x ∧
        IsGreatest (Leads radixDigits |x|) |part.value| ∧
        ∀ product ∈ part.products, package.format.Representable product) := by
  have wide := package_wide package
  constructor
  · intro none
    have precise := package.format.precision_pos
    unfold leadingPart
    rw [if_neg (by unfold machineMantissa; omega), if_pos none]
  · intro positive
    rcases le_or_gt (package.format.precision : ℤ) radixDigits with all | fewer
    · refine ⟨⟨x, []⟩, if_pos all, representable, rfl,
        self_mem_leads representable all, by simp⟩
    · rcases eq_or_ne x 0 with rfl | nonzero
      · refine ⟨⟨0, []⟩, leadingPart_zero wide positive fewer fuel, representable,
          rfl, ?_, by simp⟩
        refine ⟨⟨le_rfl, 0, 0, by simp, ?_⟩, ?_⟩
        · rw [Int.cast_zero, abs_zero]
          positivity
        · rintro value ⟨le, _⟩
          rwa [abs_zero] at le ⊢
      · exact leadingPart_spec (package_normal package) wide representable nonzero
          positive fewer enough

/-- The first digit of a denormal number with two. -/
theorem leadingParts_denormal :
    ((1 : ℤ) ≤ 0 →
      leadingPart Package.fatFlt.format 278 (3 * 2 ^ (-149 : ℤ)) 1 =
        some (.error "")) ∧
    ((0 : ℤ) < 1 →
      ∃ part, leadingPart Package.fatFlt.format 278 (3 * 2 ^ (-149 : ℤ)) 1 =
          some (.ok part) ∧
        Package.fatFlt.format.Representable part.value ∧
        SignType.sign part.value = SignType.sign (3 * 2 ^ (-149 : ℤ) : ℚ) ∧
        IsGreatest (Leads 1 |3 * 2 ^ (-149 : ℤ)|) |part.value| ∧
        ∀ product ∈ part.products,
          Package.fatFlt.format.Representable product) := by
  apply leadingParts
  · decide
  · refine ⟨3, -149, by norm_num, by decide, by decide, ?_⟩
    calc |(3 * 2 ^ (-149 : ℤ) : ℚ)| < 2 ^ (0 : ℤ) := by norm_num [abs_of_pos]
      _ ≤ 2 ^ Package.fatFlt.format.maxExponent :=
          zpow_le_zpow_right₀ (by norm_num) (show (0 : ℤ) ≤ 128 by decide)

end Packages

end FloatAttributes

end AdacHybridMsp430
