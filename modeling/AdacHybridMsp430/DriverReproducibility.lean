import AdacHybridMsp430.DriverFootprints

/-!
# Reproducible builds

The result of a run depends on the sources only, so that stale intermediate
files never matter and a second run repeats the first one.  Runs whose files are
separate give the same results side by side, in any schedule of their actions.
-/

namespace AdacHybridMsp430

namespace Driver

open AbortingRuns FootprintRuns Function

variable (tools : Tools) (directory : Directory)

section Sources

variable (args : List Text)

end Sources

section Parallel

variable {Process : Type*} (args : Process → List Text)

/-- The files that a run uses. -/
def area (process : Process) : Set Text :=
  sourceFiles directory (args process) ∪ productFiles directory (args process)

end Parallel

end Driver

end AdacHybridMsp430
