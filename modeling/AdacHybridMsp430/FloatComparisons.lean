import AdacHybridMsp430.RuntimeSystem
import Mathlib.Algebra.Order.Field.Rat
import Mathlib.Order.WithBot
import Mathlib.Tactic.Common

/-!
# Comparison of floating-point numbers

The bridge functions `__mspabi_cmpf` and `__mspabi_cmpd` of the LLVM run-time,
on bit patterns.  Their callers compare the result with zero.
-/

namespace AdacHybridMsp430

namespace FloatComparisons

/-- The numbers and the two infinities. -/
abbrev Extended := WithBot (WithTop ℚ)

/-- What a bit pattern stands for.  `none` is a NaN. -/
abbrev Datum := Option Extended

def number (value : ℚ) : Datum := some (WithBot.some (WithTop.some value))

/-- The datum of a pattern with fields of these sizes: the fraction in the low
bits, the biased exponent above it, and the sign. -/
def decode (fractionBits exponentBits : ℕ)
    (bits : BitVec (fractionBits + exponentBits + 1)) : Datum :=
  let fraction := (bits.extractLsb' 0 fractionBits).toNat
  let exponent := (bits.extractLsb' fractionBits exponentBits).toNat
  let bias : ℤ := 2 ^ (exponentBits - 1) - 1
  if exponent = 2 ^ exponentBits - 1 then
    if fraction = 0 then some (if bits.msb then ⊥ else ⊤) else none
  else
    let significand := if exponent = 0 then fraction else 2 ^ fractionBits + fraction
    let magnitude : ℚ :=
      significand * 2 ^ ((max exponent 1 : ℕ) - bias - fractionBits : ℤ)
    number (if bits.msb then -magnitude else magnitude)

/-- `float`. -/
def float (bits : BitVec 32) : Datum := decode 23 8 bits

/-- `double`. -/
def double (bits : BitVec 64) : Datum := decode 52 11 bits

/-- A relation of ordered operands, false of unordered ones. -/
def Holds (relation : Extended → Extended → Prop) : Datum → Datum → Prop
  | some x, some y => relation x y
  | _, _ => False

instance (relation : Extended → Extended → Prop) [DecidableRel relation] :
    DecidableRel (Holds relation)
  | some x, some y => inferInstanceAs (Decidable (relation x y))
  | none, _ => .isFalse nofun
  | some _, none => .isFalse nofun

/-- The common text of the two functions. -/
def cmp (x y : Datum) : BitVec 32 :=
  if Holds (· < ·) x y then -1
  else if Holds (· > ·) x y then 1
  else 0

def mspabiCmpf (x y : BitVec 32) : BitVec 32 := cmp (float x) (float y)

def mspabiCmpd (x y : BitVec 64) : BitVec 32 := cmp (double x) (double y)

/-- The result as the caller reads it. -/
def lowBits (result : BitVec 32) : ℤ := (result.setWidth 16).toInt

/-- A result compares with zero as the operands compare, in all six ways. -/
def Decides (result : ℤ) (x y : Datum) : Prop :=
  (result = 0 ↔ Holds (· = ·) x y) ∧
    (result ≠ 0 ↔ ¬ Holds (· = ·) x y) ∧
    (result < 0 ↔ Holds (· < ·) x y) ∧
    (result ≤ 0 ↔ Holds (· ≤ ·) x y) ∧
    (result > 0 ↔ Holds (· > ·) x y) ∧
    (result ≥ 0 ↔ Holds (· ≥ ·) x y)

section Comparison

/-- The three results, as the caller reads them. -/
theorem lowBits_cmp (x y : Datum) :
    lowBits (cmp x y) =
      if Holds (· < ·) x y then -1 else if Holds (· > ·) x y then 1 else 0 := by
  unfold cmp
  split
  · rfl
  · split <;> rfl

theorem lowBits_lt_zero_iff (x y : Datum) :
    lowBits (cmp x y) < 0 ↔ Holds (· < ·) x y := by
  rw [lowBits_cmp]
  split
  · simpa
  · split <;> simpa

theorem not_holds_gt_of_lt {x y : Datum} (less : Holds (· < ·) x y) :
    ¬ Holds (· > ·) x y := by
  cases x with
  | none => exact nofun
  | some x =>
      cases y with
      | none => exact nofun
      | some y => exact lt_asymm less

theorem lowBits_gt_zero_iff (x y : Datum) :
    lowBits (cmp x y) > 0 ↔ Holds (· > ·) x y := by
  rw [lowBits_cmp]
  split
  · rename_i less
    simpa using not_holds_gt_of_lt less
  · split <;> simpa

theorem lowBits_eq_zero_iff (x y : Extended) :
    lowBits (cmp (some x) (some y)) = 0 ↔ x = y := by
  have less : lowBits (cmp (some x) (some y)) < 0 ↔ x < y :=
    lowBits_lt_zero_iff (some x) (some y)
  have greater : lowBits (cmp (some x) (some y)) > 0 ↔ y < x :=
    lowBits_gt_zero_iff (some x) (some y)
  calc lowBits (cmp (some x) (some y)) = 0
      ↔ ¬ lowBits (cmp (some x) (some y)) > 0 ∧
          ¬ lowBits (cmp (some x) (some y)) < 0 := by omega
    _ ↔ ¬ y < x ∧ ¬ x < y := and_congr greater.not less.not
    _ ↔ x = y := by rw [not_lt, not_lt, le_antisymm_iff]

/-- All six comparisons are decided if no operand is a NaN. -/
theorem decides_of_ordered (x y : Extended) :
    Decides (lowBits (cmp (some x) (some y))) (some x) (some y) := by
  have less : lowBits (cmp (some x) (some y)) < 0 ↔ x < y :=
    lowBits_lt_zero_iff (some x) (some y)
  have greater : lowBits (cmp (some x) (some y)) > 0 ↔ y < x :=
    lowBits_gt_zero_iff (some x) (some y)
  have equal := lowBits_eq_zero_iff x y
  refine ⟨equal, equal.not, less, ?_, greater, ?_⟩
  · rw [← not_lt]
    exact greater.not.trans not_lt
  · rw [ge_iff_le, ← not_lt]
    exact less.not.trans not_lt

/-- No result compares with zero as unordered operands do. -/
theorem not_decides_of_nan {x y : Datum} (nan : x = none ∨ y = none) (result : ℤ) :
    ¬ Decides result x y := by
  have unordered : ∀ relation, ¬ Holds relation x y := by
    intro relation holds
    rcases nan with rfl | rfl
    · exact holds
    · cases x <;> exact holds
  rintro ⟨equal, -, less, -, greater, -⟩
  have nonzero := equal.not.mpr (unordered _)
  have nonneg := less.not.mpr (unordered _)
  have nonpos := greater.not.mpr (unordered _)
  omega

theorem decides_iff (x y : Datum) :
    Decides (lowBits (cmp x y)) x y ↔ x ≠ none ∧ y ≠ none := by
  constructor
  · intro decides
    rw [← not_or]
    exact fun nan => not_decides_of_nan nan _ decides
  · rintro ⟨ordered, orderedRight⟩
    obtain ⟨x, rfl⟩ := Option.ne_none_iff_exists'.mp ordered
    obtain ⟨y, rfl⟩ := Option.ne_none_iff_exists'.mp orderedRight
    exact decides_of_ordered x y

/-- The relation of giving zero is transitive through all data but a NaN. -/
theorem lowBits_trans {x y z : Datum} (ordered : y ≠ none)
    (left : lowBits (cmp x y) = 0) (right : lowBits (cmp y z) = 0) :
    lowBits (cmp x z) = 0 := by
  obtain ⟨y, rfl⟩ := Option.ne_none_iff_exists'.mp ordered
  cases x with
  | none => rfl
  | some x =>
      cases z with
      | none => rfl
      | some z =>
          rw [lowBits_eq_zero_iff] at left right ⊢
          exact left.trans right

end Comparison

/-- What a bridge function promises to its callers for two operands, and for a
third one between them. -/
structure Bridges {width : ℕ} (datum : BitVec width → Datum)
    (compare : BitVec width → BitVec width → BitVec 32)
    (x y middle : BitVec width) : Prop where
  less : lowBits (compare x y) < 0 ↔ Holds (· < ·) (datum x) (datum y)
  greater : lowBits (compare x y) > 0 ↔ Holds (· > ·) (datum x) (datum y)
  decides : Decides (lowBits (compare x y)) (datum x) (datum y) ↔
    datum x ≠ none ∧ datum y ≠ none
  trans : datum middle ≠ none → lowBits (compare x middle) = 0 →
    lowBits (compare middle y) = 0 → lowBits (compare x y) = 0

theorem bridges_cmp {width : ℕ} (datum : BitVec width → Datum)
    (x y middle : BitVec width) :
    Bridges datum (fun x y => cmp (datum x) (datum y)) x y middle where
  less := lowBits_lt_zero_iff (datum x) (datum y)
  greater := lowBits_gt_zero_iff (datum x) (datum y)
  decides := decides_iff (datum x) (datum y)
  trans := lowBits_trans

/-- Both functions decide the six comparisons exactly of operands that are no
NaN. -/
theorem comparisons_bridge (x y middle : BitVec 32) (x' y' middle' : BitVec 64) :
    Bridges float mspabiCmpf x y middle ∧ Bridges double mspabiCmpd x' y' middle' :=
  ⟨bridges_cmp float x y middle, bridges_cmp double x' y' middle'⟩

/-- A NaN is not equal to itself, but gives zero; and it gives zero with both
infinities, which are different. -/
theorem not_decides_nan :
    ¬ Decides (lowBits (mspabiCmpf 0x7FC00000 0x7FC00000))
      (float 0x7FC00000) (float 0x7FC00000) ∧
    lowBits (mspabiCmpf 0xFF800000 0x7FC00000) = 0 ∧
    lowBits (mspabiCmpf 0x7FC00000 0x7F800000) = 0 ∧
    lowBits (mspabiCmpf 0xFF800000 0x7F800000) = -1 := by
  have nan : float 0x7FC00000 = none := by decide
  refine ⟨not_decides_of_nan (Or.inl nan) _, ?_⟩
  decide

end FloatComparisons

end AdacHybridMsp430
