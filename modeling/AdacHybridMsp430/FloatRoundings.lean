import AdacHybridMsp430.BinaryFloatIntegers
import AdacHybridMsp430.DecimalNumerals
import AdacHybridMsp430.FloatNeighbours
import AdacHybridMsp430.FloatRemainders

/-!
# Roundings of machine numbers

`Truncation` adds the power of two with a last place of one and subtracts it
again.  The other functions round through it.  Every sum, difference, product
and quotient is rounded to a machine number.
-/

namespace AdacHybridMsp430

namespace FloatAttributes

open BinaryFloats BoundedLoops DecimalNumerals

section Model

variable (format : Format)

def plus (x y : ℚ) : ℚ := machine format (x + y)

def minus (x y : ℚ) : ℚ := machine format (x - y)

def times (x y : ℚ) : ℚ := machine format (x * y)

def quotient (x y : ℚ) : ℚ := machine format (x / y)

def radixToMMinus1 : ℚ := rad ^ (machineMantissa format - 1)

/-- The end of the functions that round an absolute value.  Zeros carry no
sign. -/
def withSign (x result : ℚ) : ℚ :=
  if 0 < x then result
  else if x < 0 then -result
  else x

def truncation (x : ℚ) : ℚ :=
  if radixToMMinus1 format ≤ |x| then
    machine format x
  else
    let result := minus format
      (machine format (plus format (radixToMMinus1 format) |x|))
      (radixToMMinus1 format)
    withSign x (if |x| < result then minus format result 1 else result)

def floor (x : ℚ) : ℚ :=
  let xt := truncation format x
  if 0 ≤ x then xt
  else if xt = x then x
  else minus format xt 1

def ceiling (x : ℚ) : ℚ :=
  let xt := truncation format x
  if x ≤ 0 then xt
  else if x = xt then x
  else plus format xt 1

def rounding (x : ℚ) : ℚ :=
  let result := truncation format |x|
  let tail := minus format |x| result
  withSign x (if 1 / 2 ≤ tail then plus format result 1 else result)

/-- `Machine_Rounding`, which has the text of `Rounding`. -/
def machineRounding (x : ℚ) : ℚ := rounding format x

def unbiasedRounding (x : ℚ) : ℚ :=
  let result := truncation format |x|
  let tail := minus format |x| result
  withSign x
    (if 1 / 2 < tail then
      plus format result 1
    else if tail = 1 / 2 then
      times format 2 (truncation format (plus format (quotient format result 2) (1 / 2)))
    else
      result)

end Model

variable {format : Format}

section Signs

/-- A rounding of absolute values that is odd needs the sign only. -/
theorem withSign_of_odd {result : ℚ → ℤ} (odd : ∀ x, result (-x) = -result x)
    (x : ℚ) : withSign x (result |x|) = result x := by
  unfold withSign
  rcases lt_trichotomy x 0 with negative | rfl | positive
  · rw [if_neg negative.not_gt, if_pos negative, abs_of_neg negative, odd]
    push_cast
    ring
  · have zero : result 0 = -result 0 := by
      rw [← odd, neg_zero]
    rw [if_neg (lt_irrefl _), if_neg (lt_irrefl _), show result 0 = 0 by omega]
    rfl
  · rw [if_pos positive, abs_of_pos positive]

theorem truncate_neg (x : ℚ) : truncate (-x) = -truncate x := by
  unfold truncate
  rcases lt_trichotomy x 0 with negative | rfl | positive
  · rw [if_pos (by linarith), if_neg negative.not_ge, Int.floor_neg]
  · simp
  · rw [if_neg (by linarith), if_pos positive.le, Int.ceil_neg]

theorem truncate_abs (x : ℚ) : truncate |x| = ⌊|x|⌋ :=
  if_pos (abs_nonneg x)

theorem truncate_intCast (n : ℤ) : truncate n = n := by
  unfold truncate
  split
  · exact Int.floor_intCast n
  · exact Int.ceil_intCast n

end Signs

section Truncation

theorem radixToMMinus1_eq : radixToMMinus1 format = 2 ^ (format.precision - 1 : ℤ) :=
  rfl

theorem exists_unit (format : Format) : ∃ unit : ℤ, radixToMMinus1 format = unit := by
  have precise := format.precision_pos
  refine ⟨2 ^ (format.precision - 1), ?_⟩
  rw [radixToMMinus1_eq, ← Nat.cast_pred precise, zpow_natCast]
  push_cast
  rfl

/-- The integers next to a number below the power of two are not above it. -/
theorem representable_neighbour (wide : (format.precision : ℤ) < format.maxExponent)
    {x : ℚ} (small : |x| < radixToMMinus1 format) {n : ℤ}
    (lower : ⌊x⌋ ≤ n) (upper : n ≤ ⌊x⌋ + 1) : format.Representable n := by
  apply representable_of_int wide.le
  obtain ⟨unit, eq⟩ := exists_unit format
  rw [← radixToMMinus1_eq]
  rw [eq] at small ⊢
  obtain ⟨below, above⟩ := abs_lt.mp small
  have floorLower : -unit ≤ ⌊x⌋ := by
    apply Int.le_floor.mpr
    push_cast
    exact below.le
  have floorUpper : ⌊x⌋ < unit := Int.floor_lt.mpr above
  have size : |n| ≤ unit := abs_le.mpr ⟨by omega, by omega⟩
  exact_mod_cast size

theorem machine_neighbour (wide : (format.precision : ℤ) < format.maxExponent)
    {x : ℚ} (small : |x| < radixToMMinus1 format) {n : ℤ}
    (lower : ⌊x⌋ ≤ n) (upper : n ≤ ⌊x⌋ + 1) : machine format n = n :=
  nearest_of_representable (representable_neighbour wide small lower upper)

theorem machine_floor (wide : (format.precision : ℤ) < format.maxExponent) {x : ℚ}
    (small : |x| < radixToMMinus1 format) : machine format ⌊x⌋ = ⌊x⌋ :=
  machine_neighbour wide small le_rfl (by omega)

theorem machine_floor_add_one (wide : (format.precision : ℤ) < format.maxExponent)
    {x : ℚ} (small : |x| < radixToMMinus1 format) :
    machine format (⌊x⌋ + 1) = ⌊x⌋ + 1 := by
  have same := machine_neighbour wide small (n := ⌊x⌋ + 1) (by omega) le_rfl
  push_cast at same
  exact same

theorem floor_add_one_le {x : ℚ} (small : x < radixToMMinus1 format) :
    (⌊x⌋ : ℚ) + 1 ≤ radixToMMinus1 format := by
  obtain ⟨unit, eq⟩ := exists_unit format
  rw [eq] at small ⊢
  exact_mod_cast Int.floor_lt.mpr small

/-- The sum with the power of two does not overflow, and is a machine number. -/
theorem machine_plus_unit (wide : (format.precision : ℤ) < format.maxExponent)
    {x : ℚ} (nonneg : 0 ≤ x) (small : x < radixToMMinus1 format) :
    machine format (plus format (radixToMMinus1 format) x) =
      plus format (radixToMMinus1 format) x := by
  have floor : (0 : ℚ) ≤ ⌊x⌋ := by
    exact_mod_cast Int.floor_nonneg.mpr nonneg
  have next := floor_add_one_le small
  have double : radixToMMinus1 format + radixToMMinus1 format =
      2 ^ (format.precision : ℤ) := by
    rw [radixToMMinus1_eq, zpow_sub_one₀ (by norm_num)]
    ring
  have range : (2 : ℚ) ^ (format.precision : ℤ) < 2 ^ format.maxExponent :=
    zpow_lt_zpow_right₀ (by norm_num) wide
  apply nearest_of_representable
  apply representable_nearest
  rw [radixToMMinus1_eq] at *
  rcases nearest_add_unit nonneg small with eq | ⟨eq, _⟩
  · rw [eq, abs_of_nonneg (by linarith)]
    linarith
  · rw [eq, abs_of_nonneg (by linarith)]
    linarith

/-- The sum and the difference have the integer part, or one more. -/
theorem minus_plus_unit (wide : (format.precision : ℤ) < format.maxExponent)
    {x : ℚ} (nonneg : 0 ≤ x) (small : x < radixToMMinus1 format) :
    minus format (plus format (radixToMMinus1 format) x) (radixToMMinus1 format) =
        ⌊x⌋ ∨
      minus format (plus format (radixToMMinus1 format) x) (radixToMMinus1 format) =
          ⌊x⌋ + 1 := by
  have absSmall : |x| < radixToMMinus1 format := by
    rwa [abs_of_nonneg nonneg]
  unfold minus
  rcases nearest_add_unit nonneg small with eq | ⟨eq, _⟩
  · left
    have sum : plus format (radixToMMinus1 format) x =
        radixToMMinus1 format + ⌊x⌋ := eq
    rw [sum, add_sub_cancel_left, machine_floor wide absSmall]
  · right
    have sum : plus format (radixToMMinus1 format) x =
        radixToMMinus1 format + (⌊x⌋ + 1) := eq
    rw [sum, add_sub_cancel_left, machine_floor_add_one wide absSmall]

theorem truncation_spec (wide : (format.precision : ℤ) < format.maxExponent)
    {x : ℚ} (representable : format.Representable x) :
    truncation format x = truncate x := by
  unfold truncation
  split
  · rename_i large
    obtain ⟨n, rfl⟩ := representable.exists_int large
    rw [truncate_intCast]
    exact nearest_of_representable representable
  · rename_i notLarge
    have small := not_le.mp notLarge
    have nonneg := abs_nonneg x
    rw [← withSign_of_odd truncate_neg, truncate_abs,
      machine_plus_unit wide nonneg small]
    dsimp only
    congr 1
    rcases minus_plus_unit wide nonneg small with eq | eq
    · rw [eq, if_neg (not_lt.mpr (Int.floor_le |x|))]
    · rw [eq, if_pos (Int.lt_floor_add_one |x|), minus, add_sub_cancel_right,
        machine_floor wide (by rwa [abs_abs])]

end Truncation

section Directed

/-- The machine numbers that are not integers are below the power of two. -/
theorem abs_lt_of_not_int {x : ℚ} (representable : format.Representable x)
    (notInt : x ∉ Set.range ((↑) : ℤ → ℚ)) : |x| < radixToMMinus1 format := by
  by_contra large
  obtain ⟨n, eq⟩ := representable.exists_int (not_lt.mp large)
  exact notInt ⟨n, eq.symm⟩

theorem truncate_eq_self_iff {x : ℚ} :
    (truncate x : ℚ) = x ↔ x ∈ Set.range ((↑) : ℤ → ℚ) := by
  constructor
  · intro same
    exact ⟨truncate x, same⟩
  · rintro ⟨n, rfl⟩
    rw [truncate_intCast]

theorem floor_spec (wide : (format.precision : ℤ) < format.maxExponent)
    {x : ℚ} (representable : format.Representable x) :
    floor format x = ⌊x⌋ := by
  unfold floor
  rw [truncation_spec wide representable]
  dsimp only
  split
  · rename_i nonneg
    rw [truncate, if_pos nonneg]
  · rename_i negative
    split
    · rename_i same
      obtain ⟨n, rfl⟩ := truncate_eq_self_iff.mp same
      rw [Int.floor_intCast]
    · rename_i different
      have notInt := mt truncate_eq_self_iff.mpr different
      have small := abs_lt_of_not_int representable notInt
      have next := (Int.ceil_eq_floor_add_one_iff_notMem x).mpr notInt
      rw [truncate, if_neg negative, next, minus]
      push_cast
      rw [add_sub_cancel_right, machine_floor wide small]

theorem ceiling_spec (wide : (format.precision : ℤ) < format.maxExponent)
    {x : ℚ} (representable : format.Representable x) :
    ceiling format x = ⌈x⌉ := by
  unfold ceiling
  rw [truncation_spec wide representable]
  dsimp only
  split
  · rename_i nonpos
    rcases nonpos.lt_or_eq with negative | rfl
    · rw [truncate, if_neg negative.not_ge]
    · simp [truncate]
  · rename_i positive
    split
    · rename_i same
      obtain ⟨n, rfl⟩ := truncate_eq_self_iff.mp same.symm
      rw [Int.ceil_intCast]
    · rename_i different
      have notInt := mt truncate_eq_self_iff.mpr (Ne.symm different)
      have small := abs_lt_of_not_int representable notInt
      have next := (Int.ceil_eq_floor_add_one_iff_notMem x).mpr notInt
      rw [truncate, if_pos (not_le.mp positive).le, next, plus,
        machine_floor_add_one wide small]
      push_cast
      rfl

end Directed

section Nearest

/-- The places behind the point are taken off without rounding. -/
theorem minus_floor {x : ℚ} (representable : format.Representable x)
    (nonneg : 0 ≤ x) : minus format x ⌊x⌋ = Int.fract x :=
  nearest_of_representable (representable.fract nonneg)

/-- A number with places behind the point has a machine number above its integer
part. -/
theorem plus_floor_one (wide : (format.precision : ℤ) < format.maxExponent)
    {x : ℚ} (representable : format.Representable x) (places : 0 < Int.fract x) :
    plus format ⌊x⌋ 1 = ⌊x⌋ + 1 := by
  apply machine_floor_add_one wide
  apply abs_lt_of_not_int representable
  exact Int.fract_ne_zero_iff.mp places.ne'

theorem rounding_spec (wide : (format.precision : ℤ) < format.maxExponent)
    {x : ℚ} (representable : format.Representable x) :
    rounding format x = roundHalfAway x := by
  have nonneg := abs_nonneg x
  unfold rounding
  rw [truncation_spec wide representable.abs, truncate_abs,
    ← withSign_of_odd roundHalfAway_neg]
  dsimp only
  rw [minus_floor representable.abs nonneg, roundHalfAway_of_nonneg nonneg]
  congr 1
  have split := Int.floor_add_fract |x|
  have below := Int.fract_lt_one |x|
  have least := Int.fract_nonneg |x|
  split
  · rename_i up
    rw [plus_floor_one wide representable.abs (by linarith)]
    have next : ⌊|x| + 1 / 2⌋ = ⌊|x|⌋ + 1 := by
      rw [Int.floor_eq_iff]
      push_cast
      exact ⟨by linarith, by linarith⟩
    rw [next]
    push_cast
    rfl
  · rename_i down
    have same : ⌊|x| + 1 / 2⌋ = ⌊|x|⌋ := by
      rw [Int.floor_eq_iff]
      exact ⟨by linarith, by linarith⟩
    rw [same]

theorem representable_half (normal : format.minExponent + format.precision ≤ 0)
    (wide : (format.precision : ℤ) < format.maxExponent) {n : ℤ}
    (size : |(n : ℚ)| ≤ radixToMMinus1 format) :
    format.Representable ((n : ℚ) / 2) := by
  have precise := format.precision_pos
  have half : |(n : ℚ) / 2| ≤ |(n : ℚ)| := by
    rw [abs_div, abs_two]
    exact half_le_self (abs_nonneg _)
  apply representable_of_multiple ⟨n, by rw [zpow_neg_one, div_eq_mul_inv]⟩
  · omega
  · exact half.trans size
  · obtain ⟨_, _, _, _, _, range⟩ := representable_of_int wide.le size
    exact half.trans_lt range

theorem truncate_half_add_one {n : ℤ} (nonneg : 0 ≤ n) :
    truncate (((n + 1 : ℤ) : ℚ) / 2) = (n + 1) / 2 := by
  have half : (0 : ℚ) ≤ ((n + 1 : ℤ) : ℚ) / 2 := by
    have cast : (0 : ℚ) ≤ n := by
      exact_mod_cast nonneg
    push_cast
    linarith
  rw [truncate, if_pos half]
  exact Rat.floor_intCast_div_natCast (n + 1) 2

/-- Twice the integer part of half of the next integer is the even one of two
integers. -/
theorem times_truncation_half (normal : format.minExponent + format.precision ≤ 0)
    (wide : (format.precision : ℤ) < format.maxExponent) {x : ℚ} (nonneg : 0 ≤ x)
    (small : x < radixToMMinus1 format) :
    times format 2
        (truncation format (plus format (quotient format ⌊x⌋ 2) (1 / 2))) =
      ((2 * ((⌊x⌋ + 1) / 2) : ℤ) : ℚ) := by
  have floorNonneg := Int.floor_nonneg.mpr nonneg
  have floor : (0 : ℚ) ≤ ⌊x⌋ := by
    exact_mod_cast floorNonneg
  have next := floor_add_one_le small
  have half : quotient format ⌊x⌋ 2 = ⌊x⌋ / 2 := by
    apply nearest_of_representable
    apply representable_half normal wide
    rw [abs_of_nonneg floor]
    linarith
  have nextHalf : format.Representable (((⌊x⌋ + 1 : ℤ) : ℚ) / 2) := by
    apply representable_half normal wide
    push_cast
    rw [abs_of_nonneg (by linarith)]
    exact next
  have sum : plus format (quotient format ⌊x⌋ 2) (1 / 2) =
      ((⌊x⌋ + 1 : ℤ) : ℚ) / 2 := by
    rw [half, plus]
    have same : (⌊x⌋ : ℚ) / 2 + 1 / 2 = ((⌊x⌋ + 1 : ℤ) : ℚ) / 2 := by
      push_cast
      ring
    rw [same]
    exact nearest_of_representable nextHalf
  have double : (2 : ℚ) * (((⌊x⌋ + 1) / 2 : ℤ) : ℚ) =
      ((2 * ((⌊x⌋ + 1) / 2) : ℤ) : ℚ) := by
    push_cast
    rfl
  rw [sum, truncation_spec wide nextHalf, truncate_half_add_one floorNonneg, times,
    double]
  apply machine_neighbour wide (x := x)
  · rwa [abs_of_nonneg nonneg]
  · omega
  · omega

theorem withSign_nearest {x : ℚ} {n : ℤ} (nearest : Nearest |x| n) :
    ∃ m : ℤ, withSign x n = m ∧ Nearest x m := by
  unfold withSign
  rcases lt_trichotomy x 0 with negative | rfl | positive
  · rw [if_neg negative.not_gt, if_pos negative]
    rw [abs_of_neg negative] at nearest
    refine ⟨-n, by push_cast; rfl, ?_⟩
    rw [← neg_neg x]
    exact nearest.neg
  · rw [if_neg (lt_irrefl _), if_neg (lt_irrefl _)]
    refine ⟨0, by simp, ?_⟩
    apply nearest_of_abs_le
    · norm_num
    · norm_num
  · rw [if_pos positive]
    rw [abs_of_pos positive] at nearest
    exact ⟨n, rfl, nearest⟩

theorem unbiasedRounding_spec (normal : format.minExponent + format.precision ≤ 0)
    (wide : (format.precision : ℤ) < format.maxExponent)
    {x : ℚ} (representable : format.Representable x) :
    ∃ n : ℤ, unbiasedRounding format x = n ∧ Nearest x n := by
  have nonneg := abs_nonneg x
  have split : |x| = ⌊|x|⌋ + Int.fract |x| := (Int.floor_add_fract |x|).symm
  have below := Int.fract_lt_one |x|
  have least := Int.fract_nonneg |x|
  unfold unbiasedRounding
  rw [truncation_spec wide representable.abs, truncate_abs]
  dsimp only
  rw [minus_floor representable.abs nonneg]
  rcases lt_trichotomy (Int.fract |x|) (1 / 2) with down | tie | up
  · rw [if_neg down.not_gt, if_neg down.ne]
    apply withSign_nearest
    apply nearest_self split least
    rintro (above | ⟨same, _⟩)
    · linarith
    · linarith
  · have small : |x| < radixToMMinus1 format := by
      apply abs_lt_of_not_int representable
      rintro ⟨n, rfl⟩
      rw [← Int.cast_abs, Int.fract_intCast] at tie
      norm_num at tie
    rw [if_neg tie.not_gt, if_pos tie, times_truncation_half normal wide nonneg small]
    apply withSign_nearest
    rcases Int.even_or_odd ⌊|x|⌋ with even | odd
    · have same : 2 * ((⌊|x|⌋ + 1) / 2) = ⌊|x|⌋ := by
        obtain ⟨half, eq⟩ := even
        omega
      rw [same]
      apply nearest_self split least
      rintro (above | ⟨_, odd⟩)
      · linarith
      · exact (Int.not_odd_iff_even.mpr even) odd
    · have same : 2 * ((⌊|x|⌋ + 1) / 2) = ⌊|x|⌋ + 1 := by
        obtain ⟨half, eq⟩ := odd
        omega
      rw [same]
      exact nearest_add_one split below (Or.inr ⟨tie, odd⟩)
  · have next : plus format ⌊|x|⌋ 1 = ((⌊|x|⌋ + 1 : ℤ) : ℚ) := by
      rw [plus_floor_one wide representable.abs (by linarith)]
      push_cast
      rfl
    rw [if_pos up, next]
    apply withSign_nearest
    exact nearest_add_one split below (Or.inl up)

end Nearest

section Neighbourhood

/-- The integers around a machine number are machine numbers. -/
theorem representable_around (wide : (format.precision : ℤ) < format.maxExponent)
    {x : ℚ} (representable : format.Representable x) {n : ℤ}
    (near : |x - n| < 1) : format.Representable n := by
  by_cases notInt : x ∈ Set.range ((↑) : ℤ → ℚ)
  · obtain ⟨m, rfl⟩ := notInt
    have less : |m - n| < 1 := by
      exact_mod_cast near
    have same : m = n := by
      have bounds := abs_lt.mp less
      omega
    rwa [← same]
  · have small := abs_lt_of_not_int representable notInt
    obtain ⟨below, above⟩ := abs_lt.mp near
    apply representable_neighbour wide small
    · have less : ⌊x⌋ < n + 1 := by
        apply Int.floor_lt.mpr
        push_cast
        linarith
      omega
    · have le : n - 1 ≤ ⌊x⌋ := by
        apply Int.le_floor.mpr
        push_cast
        linarith
      omega

theorem abs_sub_truncate_lt (x : ℚ) : |x - truncate x| < 1 := by
  unfold truncate
  split
  · rw [abs_of_nonneg (by linarith [Int.floor_le x])]
    linarith [Int.lt_floor_add_one x]
  · rw [abs_of_nonpos (by linarith [Int.le_ceil x])]
    linarith [Int.ceil_lt_add_one x]

end Neighbourhood

section Packages

theorem package_wide (package : Package) :
    (package.format.precision : ℤ) < package.format.maxExponent := by
  cases package with
  | fatFlt => decide
  | fatLFlt => decide

/-- In both packages the roundings of every machine number are the integers that
their names stand for, and these are machine numbers. -/
theorem roundings (package : Package) {x : ℚ}
    (representable : package.format.Representable x) :
    truncation package.format x = truncate x ∧
      floor package.format x = ⌊x⌋ ∧
      ceiling package.format x = ⌈x⌉ ∧
      rounding package.format x = roundHalfAway x ∧
      machineRounding package.format x = roundHalfAway x ∧
      ∃ even : ℤ, unbiasedRounding package.format x = even ∧ Nearest x even ∧
        ∀ n ∈ [truncate x, ⌊x⌋, ⌈x⌉, roundHalfAway x, even],
          package.format.Representable n := by
  have wide := package_wide package
  obtain ⟨even, unbiased, nearest⟩ :=
    unbiasedRounding_spec (package_normal package) wide representable
  have rounded := rounding_spec wide representable
  refine ⟨truncation_spec wide representable, floor_spec wide representable,
    ceiling_spec wide representable, rounded, rounded, even, unbiased, nearest, ?_⟩
  intro n member
  apply representable_around wide representable
  simp only [List.mem_cons, List.not_mem_nil, or_false] at member
  rcases member with rfl | rfl | rfl | rfl | rfl
  · exact abs_sub_truncate_lt x
  · rw [abs_of_nonneg (by linarith [Int.floor_le x])]
    linarith [Int.lt_floor_add_one x]
  · rw [abs_of_nonpos (by linarith [Int.le_ceil x])]
    linarith [Int.ceil_lt_add_one x]
  · linarith [abs_sub_roundHalfAway_le x]
  · linarith [nearest.abs_le]

/-- A tie below zero, where the five roundings differ. -/
theorem roundings_tie :
    truncation Package.fatLFlt.format (-5 / 2) = truncate (-5 / 2) ∧
      floor Package.fatLFlt.format (-5 / 2) = ⌊(-5 / 2 : ℚ)⌋ ∧
      ceiling Package.fatLFlt.format (-5 / 2) = ⌈(-5 / 2 : ℚ)⌉ ∧
      rounding Package.fatLFlt.format (-5 / 2) = roundHalfAway (-5 / 2) ∧
      machineRounding Package.fatLFlt.format (-5 / 2) = roundHalfAway (-5 / 2) ∧
      ∃ even : ℤ, unbiasedRounding Package.fatLFlt.format (-5 / 2) = even ∧
        Nearest (-5 / 2) even ∧
        ∀ n ∈ [truncate (-5 / 2), ⌊(-5 / 2 : ℚ)⌋, ⌈(-5 / 2 : ℚ)⌉,
            roundHalfAway (-5 / 2), even],
          Package.fatLFlt.format.Representable n := by
  apply roundings
  refine ⟨-5, -1, by norm_num, by decide, by decide, ?_⟩
  calc |(-5 / 2 : ℚ)| < 2 ^ 2 := by norm_num [abs_of_neg]
    _ ≤ 2 ^ Package.fatLFlt.format.maxExponent :=
        zpow_le_zpow_right₀ (by norm_num) (show (2 : ℤ) ≤ 1024 by decide)

end Packages

end FloatAttributes

end AdacHybridMsp430
