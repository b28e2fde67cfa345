import AdacHybridMsp430.FloatNeighbours
import Mathlib.Data.Int.Interval
import Mathlib.Data.Set.Card

/-!
# Ways between machine numbers

`Adjacent` moves to the neighbour in the direction of another number.  Its calls
on its own results leave the machine numbers on the way behind one by one.
-/

namespace AdacHybridMsp430

namespace FloatAttributes

open BinaryFloats

def adjacent (format : Format) (fuel : ℕ) (x towards : ℚ) : Option (Except String ℚ) :=
  if towards = x then
    some (.ok x)
  else if x < towards then
    succ format fuel x
  else
    pred format fuel x

variable {format : Format}

section Adjacent

theorem finite_representable (format : Format) :
    {x | format.Representable x}.Finite := by
  have power : (0 : ℚ) < 2 ^ format.minExponent := by positivity
  have boundIs := Int.le_ceil (format.greatest / 2 ^ format.minExponent)
  generalize ⌈format.greatest / 2 ^ format.minExponent⌉ = bound at boundIs
  apply ((Set.finite_Icc (-bound) bound).image
    (fun n : ℤ => (n : ℚ) * 2 ^ format.minExponent)).subset
  intro x representable
  obtain ⟨n, eq⟩ := Format.Representable.exists_multiple representable
  refine ⟨n, ?_, eq.symm⟩
  have le : |(n : ℚ)| ≤ bound := by
    refine le_trans ?_ boundIs
    rw [le_div_iff₀ power, ← abs_of_pos power, ← abs_mul, ← eq]
    exact Format.Representable.abs_le_greatest representable
  have le : |n| ≤ bound := by
    exact_mod_cast le
  exact abs_le.mp le

/-- The machine numbers from a number to another one. -/
def path (format : Format) (x towards : ℚ) : Set ℚ :=
  {y | format.Representable y ∧ y ∈ Set.uIcc x towards}

theorem finite_path (x towards : ℚ) : (path format x towards).Finite :=
  (finite_representable format).subset fun _ member => member.1

theorem path_self {x : ℚ} (representable : format.Representable x) :
    path format x x = {x} := by
  ext y
  rw [path, Set.uIcc_self]
  constructor
  · exact fun member => member.2
  · rintro rfl
    exact ⟨representable, rfl⟩

/-- One call of `Adjacent` leaves one machine number behind. -/
theorem adjacent_spec (normal : format.minExponent + format.precision ≤ 0)
    {x towards : ℚ} (representable : format.Representable x)
    (towardsMachine : format.Representable towards) (different : x ≠ towards)
    {fuel : ℕ} (enough : passes format < fuel) :
    ∃ next, adjacent format fuel x towards = some (.ok next) ∧
      path format x towards = insert x (path format next towards) ∧
      x ∉ path format next towards ∧ next ∈ path format x towards := by
  unfold adjacent
  rw [if_neg different.symm]
  rcases lt_or_gt_of_ne different with less | greater
  · have notLast : x ≠ last format := by
      rintro rfl
      have upper := (abs_le.mp towardsMachine.abs_le_greatest).2
      exact absurd less (not_lt.mpr upper)
    obtain ⟨next, succIs, least⟩ := succ_spec normal representable notLast enough
    have nextLe := least.2 ⟨towardsMachine, less⟩
    rw [if_pos less, succIs]
    refine ⟨next, rfl, ?_, ?_, least.1.1, ?_⟩
    · ext y
      rw [Set.mem_insert_iff, path, path, Set.uIcc_of_le less.le,
        Set.uIcc_of_le nextLe]
      constructor
      · rintro ⟨machine, lower, upper⟩
        rcases lower.eq_or_lt with same | above
        · exact Or.inl same.symm
        · exact Or.inr ⟨machine, least.2 ⟨machine, above⟩, upper⟩
      · rintro (rfl | ⟨machine, lower, upper⟩)
        · exact ⟨representable, le_rfl, less.le⟩
        · exact ⟨machine, least.1.2.le.trans lower, upper⟩
    · rintro ⟨_, between⟩
      rw [Set.uIcc_of_le nextLe] at between
      exact absurd least.1.2 (not_lt.mpr between.1)
    · rw [Set.uIcc_of_le less.le]
      exact ⟨least.1.2.le, nextLe⟩
  · have notFirst : x ≠ first format := by
      rintro rfl
      have lower := (abs_le.mp towardsMachine.abs_le_greatest).1
      exact absurd greater (not_lt.mpr lower)
    obtain ⟨next, predIs, greatest⟩ := pred_spec normal representable notFirst enough
    have nextLe := greatest.2 ⟨towardsMachine, greater⟩
    rw [if_neg greater.not_gt, predIs]
    refine ⟨next, rfl, ?_, ?_, greatest.1.1, ?_⟩
    · ext y
      rw [Set.mem_insert_iff, path, path, Set.uIcc_of_ge greater.le,
        Set.uIcc_of_ge nextLe]
      constructor
      · rintro ⟨machine, lower, upper⟩
        rcases upper.eq_or_lt with same | below
        · exact Or.inl same
        · exact Or.inr ⟨machine, lower, greatest.2 ⟨machine, below⟩⟩
      · rintro (rfl | ⟨machine, lower, upper⟩)
        · exact ⟨representable, greater.le, le_rfl⟩
        · exact ⟨machine, lower, upper.trans greatest.1.2.le⟩
    · rintro ⟨_, between⟩
      rw [Set.uIcc_of_ge nextLe] at between
      exact absurd greatest.1.2 (not_lt.mpr between.2)
    · rw [Set.uIcc_of_ge greater.le]
      exact ⟨nextLe, greatest.1.2.le⟩

/-- So many calls of `Adjacent` with the results of each other. -/
def approach (format : Format) (fuel : ℕ) (towards : ℚ) :
    ℕ → ℚ → Option (Except String ℚ)
  | 0, x => some (.ok x)
  | calls + 1, x => do
      match ← adjacent format fuel x towards with
      | .ok next => approach format fuel towards calls next
      | .error message => return .error message

theorem one_le_ncard_path {x : ℚ} (representable : format.Representable x)
    (towards : ℚ) : 1 ≤ (path format x towards).ncard := by
  rw [Nat.one_le_iff_ne_zero, Ne, Set.ncard_eq_zero (finite_path x towards)]
  exact Set.Nonempty.ne_empty ⟨x, representable, Set.left_mem_uIcc⟩

/-- The calls of `Adjacent` visit the machine numbers on the way one by one, and
then stay. -/
theorem approaches (package : Package) {fuel : ℕ}
    (enough : passes package.format < fuel) {x towards : ℚ}
    (representable : package.format.Representable x)
    (towardsMachine : package.format.Representable towards) (calls : ℕ) :
    ∃ y ∈ path package.format x towards,
      approach package.format fuel towards calls x = some (.ok y) ∧
      (path package.format y towards).ncard =
        max 1 ((path package.format x towards).ncard - calls) ∧
      ((path package.format x towards).ncard ≤ calls + 1 → y = towards) := by
  induction calls generalizing x with
  | zero =>
      have least := one_le_ncard_path representable towards
      refine ⟨x, ⟨representable, Set.left_mem_uIcc⟩, rfl, by omega, ?_⟩
      intro single
      exact (Set.ncard_le_one (finite_path x towards)).mp single x
        ⟨representable, Set.left_mem_uIcc⟩ towards
        ⟨towardsMachine, Set.right_mem_uIcc⟩
  | succ calls ih =>
      rw [approach]
      rcases eq_or_ne x towards with rfl | different
      · obtain ⟨y, member, approaches, count, _⟩ := ih representable
        rw [path_self representable, Set.mem_singleton_iff] at member
        subst member
        have stays : adjacent package.format fuel y y = some (.ok y) := if_pos rfl
        rw [stays, Option.bind_eq_bind, Option.bind_some]
        refine ⟨y, ⟨representable, Set.left_mem_uIcc⟩, approaches, ?_, fun _ => rfl⟩
        rw [path_self representable, Set.ncard_singleton]
        omega
      · obtain ⟨next, moves, pathIs, left, nextMachine, between⟩ :=
          adjacent_spec (package_normal package) representable towardsMachine
            different enough
        obtain ⟨y, member, approaches, count, arrives⟩ := ih nextMachine
        have counts := Set.ncard_insert_of_notMem left (finite_path next towards)
        rw [← pathIs] at counts
        rw [moves, Option.bind_eq_bind, Option.bind_some]
        refine ⟨y, ?_, approaches, ?_, ?_⟩
        · rw [pathIs]
          exact Set.mem_insert_of_mem x member
        · rw [count, counts]
          omega
        · rw [counts]
          intro enoughCalls
          exact arrives (by omega)

/-- From below zero to above in two calls. -/
theorem approaches_least :
    ∃ y ∈ path Package.fatFlt.format (-2 ^ (-149 : ℤ)) (2 ^ (-149 : ℤ)),
      approach Package.fatFlt.format 278 (2 ^ (-149 : ℤ)) 2 (-2 ^ (-149 : ℤ)) =
        some (.ok y) ∧
      (path Package.fatFlt.format y (2 ^ (-149 : ℤ))).ncard =
        max 1 ((path Package.fatFlt.format (-2 ^ (-149 : ℤ))
          (2 ^ (-149 : ℤ))).ncard - 2) ∧
      ((path Package.fatFlt.format (-2 ^ (-149 : ℤ)) (2 ^ (-149 : ℤ))).ncard ≤
        2 + 1 → y = 2 ^ (-149 : ℤ)) := by
  have least : Package.fatFlt.format.Representable (2 ^ (-149 : ℤ)) := by
    apply representable_two_zpow
    · decide
    · decide
  exact approaches .fatFlt (by decide) least.neg least 2

end Adjacent

end FloatAttributes

end AdacHybridMsp430
