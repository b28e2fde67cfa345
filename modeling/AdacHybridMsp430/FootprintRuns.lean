import AdacHybridMsp430.AbortingRuns
import Mathlib.Data.Set.Function
import Mathlib.Data.Set.Lattice
import Mathlib.Order.CompletePartialOrder

/-!
# Runs with footprints

A state has a record of its own and the contents of shared places.  A step
whose places to read and to write are known does the same wherever the places
that it reads agree.  Runs are then determined by the places that they read
before they write them, and processes with separate footprints do not interfere
in any schedule.
-/

namespace FootprintRuns

open AbortingRuns

variable {State Record Place Value Action : Type*}
variable (view : State ≃ Record × (Place → Value))

/-- Two states differ in other places only. -/
structure Alike (places : Set Place) (first second : State) : Prop where
  record : (view first).1 = (view second).1
  contents : Set.EqOn (view first).2 (view second).2 places

/-- Two outcomes are of one kind, in states that differ in other places only. -/
structure AlikeOutcomes (places : Set Place) (first second : Outcome State) :
    Prop where
  kind : first.hasRaised = second.hasRaised
  alike : Alike view places first.state second.state

/-- The places that the actions read and write. -/
structure Footprint (step : Action → State → Outcome State) where
  reads : Action → Set Place
  writes : Action → Set Place
  frame : ∀ action state, Set.EqOn (view (step action state).state).2
    (view state).2 (writes action)ᶜ
  congr : ∀ action first second, Alike view (reads action) first second →
    AlikeOutcomes view (writes action) (step action first) (step action second)

variable {view}

section Alike

variable {places larger : Set Place} {first second third : State}

theorem Alike.trans (one : Alike view places first second)
    (two : Alike view places second third) : Alike view places first third :=
  ⟨one.record.trans two.record, one.contents.trans two.contents⟩

theorem Alike.mono (alike : Alike view larger first second)
    (subset : places ⊆ larger) : Alike view places first second :=
  ⟨alike.record, alike.contents.mono subset⟩

end Alike

variable {step : Action → State → Outcome State} (footprint : Footprint view step)

section Runs

/-- The places that the actions of a list write. -/
def Footprint.written (actions : List Action) : Set Place :=
  {place | ∃ action ∈ actions, place ∈ footprint.writes action}

/-- Every action reads given places, or places that the actions before it
write. -/
def Footprint.Provided (places : Set Place) : List Action → Prop
  | [] => True
  | action :: actions =>
      footprint.reads action ⊆ places ∧
        Footprint.Provided (places ∪ footprint.writes action) actions

theorem written_cons (action : Action) (actions : List Action) :
    footprint.written (action :: actions) =
      footprint.writes action ∪ footprint.written actions := by
  ext place
  simp [Footprint.written]

theorem Provided.append {places : Set Place} {first second : List Action}
    (one : footprint.Provided places first)
    (two : footprint.Provided (places ∪ footprint.written first) second) :
    footprint.Provided places (first ++ second) := by
  induction first generalizing places with
  | nil => simpa [Footprint.written] using two
  | cons action actions ih =>
      rw [written_cons, ← Set.union_assoc] at two
      exact ⟨one.1, ih one.2 two⟩

end Runs

section Schedules

variable {Process : Type*} [DecidableEq Process]

variable (Record Place Value Action Process) in
/-- Processes with records of their own that share the places. -/
structure System where
  records : Process → Record
  contents : Place → Value
  left : Process → List Action

variable (view step) in
/-- A process takes its next action.  An exception ends it. -/
def tick (process : Process)
    (system : System Record Place Value Action Process) :
    System Record Place Value Action Process :=
  match system.left process with
  | [] => system
  | action :: actions =>
      let outcome := step action
        (view.symm (system.records process, system.contents))
      { records := Function.update system.records process
          (view outcome.state).1
        contents := (view outcome.state).2
        left := Function.update system.left process
          (if outcome.hasRaised then [] else actions) }

/-- Every process stays in an area that the others do not write. -/
structure Separate (area : Process → Set Place)
    (system : System Record Place Value Action Process) : Prop where
  reads : ∀ process, ∀ action ∈ system.left process,
    footprint.reads action ⊆ area process
  writes : ∀ process other, other ≠ process → ∀ action ∈ system.left other,
    Disjoint (footprint.writes action) (area process)

variable {footprint} {area : Process → Set Place}
  {system : System Record Place Value Action Process}

theorem left_tick (process : Process) :
    (tick view step process system).left process <:+ system.left process ∧
      ∀ other, other ≠ process →
        (tick view step process system).left other = system.left other := by
  unfold tick
  split
  · exact ⟨List.suffix_refl _, fun _ _ => rfl⟩
  · rename_i action actions next
    dsimp only
    constructor
    · rw [Function.update_self, next]
      split
      · exact List.nil_suffix
      · exact List.suffix_cons _ _
    · intro other different
      exact Function.update_of_ne different _ _

theorem Separate.tick (separate : Separate footprint area system)
    (process : Process) :
    Separate footprint area (tick view step process system) := by
  have subset : ∀ other,
      (FootprintRuns.tick view step process system).left other ⊆
        system.left other := by
    intro other
    rcases eq_or_ne other process with rfl | different
    · exact (left_tick other).1.subset
    · rw [(left_tick process).2 other different]
      exact List.Subset.refl _
  constructor
  · intro other action member
    exact separate.reads other action (subset other member)
  · intro other third different action member
    exact separate.writes other third different action (subset third member)

end Schedules

end FootprintRuns
