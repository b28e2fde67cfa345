import Mathlib.Data.List.Infix

/-!
# Runs of steps that may abort

A step takes a state to a new state and may abort the run there.  A run takes
the steps of a list in order until the list ends or a step aborts.  The rules
below split a run at a point of its list and carry an invariant or a relation
to the start state along it.
-/

namespace AbortingRuns

/-- A part of a run ends normally or aborts, in some state either way. -/
inductive Outcome (State : Type*)
  | completed (state : State)
  | raised (state : State)

namespace Outcome

variable {State : Type*}

def state : Outcome State → State
  | completed state => state
  | raised state => state

def hasRaised : Outcome State → Bool
  | completed _ => false
  | raised _ => true

/-- Continue unless the part before has aborted. -/
def andThen (outcome : Outcome State) (next : State → Outcome State) :
    Outcome State :=
  match outcome with
  | completed state => next state
  | raised state => raised state

@[simp]
theorem state_completed (state : State) : (completed state).state = state :=
  rfl

@[simp]
theorem state_raised (state : State) : (raised state).state = state :=
  rfl

@[simp]
theorem hasRaised_completed (state : State) :
    (completed state).hasRaised = false :=
  rfl

@[simp]
theorem hasRaised_raised (state : State) : (raised state).hasRaised = true :=
  rfl

@[simp]
theorem andThen_completed (state : State) (next : State → Outcome State) :
    (completed state).andThen next = next state :=
  rfl

@[simp]
theorem andThen_raised (state : State) (next : State → Outcome State) :
    (raised state).andThen next = raised state :=
  rfl

theorem andThen_assoc (outcome : Outcome State)
    (first second : State → Outcome State) :
    (outcome.andThen first).andThen second =
      outcome.andThen fun state => (first state).andThen second := by
  cases outcome <;> rfl

theorem andThen_eq_completed_iff {outcome : Outcome State}
    {next : State → Outcome State} {last : State} :
    outcome.andThen next = .completed last ↔
      ∃ middle, outcome = .completed middle ∧ next middle = .completed last := by
  cases outcome <;> simp

@[simp]
theorem andThen_completed_right (outcome : Outcome State) :
    outcome.andThen completed = outcome := by
  cases outcome <;> rfl

end Outcome

section Runs

variable {State Action : Type*} (step : Action → State → Outcome State)

/-- Take the steps of a list until one aborts. -/
def run : List Action → State → Outcome State
  | [], state => .completed state
  | action :: actions, state => (step action state).andThen (run actions)

@[simp]
theorem run_nil (state : State) : run step [] state = .completed state :=
  rfl

theorem run_cons (action : Action) (actions : List Action) (state : State) :
    run step (action :: actions) state =
      (step action state).andThen (run step actions) :=
  rfl

@[simp]
theorem run_single (action : Action) (state : State) :
    run step [action] state = step action state := by
  rw [run_cons]
  exact Outcome.andThen_completed_right _

theorem run_append (first second : List Action) (state : State) :
    run step (first ++ second) state =
      (run step first state).andThen (run step second) := by
  induction first generalizing state with
  | nil => rfl
  | cons action first ih =>
      rw [List.cons_append, run_cons, run_cons, Outcome.andThen_assoc]
      exact congrArg _ (funext ih)

theorem run_flatMap {Other : Type*} (name : Other → List Action)
    (actions : List Other) (state : State) :
    run step (actions.flatMap name) state =
      run (fun action => run step (name action)) actions state := by
  induction actions generalizing state with
  | nil => rfl
  | cons action actions ih =>
      rw [List.flatMap_cons, run_append, run_cons]
      exact congrArg _ (funext ih)

/-- A reflexive and transitive relation that every step respects relates the
start of a run to its end. -/
theorem run_relation (related : State → State → Prop)
    (refl : ∀ state, related state state)
    (trans : ∀ {first second third}, related first second →
      related second third → related first third)
    (respects : ∀ action state, related state (step action state).state)
    (actions : List Action) (state : State) :
    related state (run step actions state).state := by
  induction actions generalizing state with
  | nil => exact refl state
  | cons action actions ih =>
      rw [run_cons]
      have first := respects action state
      cases outcome : step action state with
      | completed next =>
          rw [outcome] at first
          exact trans first (ih next)
      | raised next => simpa [outcome] using first

/-- An aborted run has an action that aborts, behind others that complete. -/
theorem exists_of_run_raised {actions : List Action} {state last : State}
    (raised : run step actions state = .raised last) :
    ∃ before action after middle, actions = before ++ action :: after ∧
      run step before state = .completed middle ∧
      step action middle = .raised last := by
  induction actions generalizing state with
  | nil => cases raised
  | cons action actions ih =>
      rw [run_cons] at raised
      cases first : step action state with
      | completed next =>
          rw [first] at raised
          obtain ⟨before, aborting, after, middle, rfl, completed, aborts⟩ :=
            ih raised
          refine ⟨action :: before, aborting, after, middle, rfl, ?_, aborts⟩
          rw [run_cons, first]
          exact completed
      | raised next =>
          rw [first] at raised
          exact ⟨[], action, actions, state, rfl, rfl, first.trans raised⟩

end Runs

end AbortingRuns
