import AdacHybridMsp430.DriverIntermediateFiles
import AdacHybridMsp430.FootprintRuns

/-!
# The files that a driver run uses

With tools that succeed, every action of a run reads and writes known files.
The sources are all that a run needs: whatever else it reads, it has written
before.  Runs are therefore reproducible, and runs on separate files do not
interfere.
-/

namespace AdacHybridMsp430

namespace Driver

open AbortingRuns Assembly FootprintRuns Function

/-- What a run has besides the files. -/
structure Log where
  stdout : List Text
  issued : List (Command × Nat)
  removed : List Text

def World.view : World ≃ Log × Files where
  toFun world := (⟨world.stdout, world.issued, world.removed⟩, world.files)
  invFun parts := ⟨parts.2, parts.1.stdout, parts.1.issued, parts.1.removed⟩
  left_inv _ := rfl
  right_inv _ := rfl

/-- An action of a run: a step of the plan, or a removal of the `finally`
clause. -/
inductive Action
  | step (step : Step)
  | remove (path : Text)

section Footprints

variable (tools : Tools) (directory : Directory)

def reads : Action → Set Text
  | .step (.command (.llvmGcc _ file)) => {directory.resolve file}
  | .step (.command (.llc _ _ bcFile)) => {directory.resolve bcFile}
  | .step (.command (.sed fileName)) => {directory.resolve fileName}
  | .step (.command (.mspGcc _)) => ∅
  | .step (.register asmFile) => {directory.resolve asmFile}
  | .remove path => {directory.resolve path}

def writes : Action → Set Text
  | .step step => stepWrites directory step
  | .remove path => {directory.resolve path}

end Footprints

section Plans

variable (tools : Tools) (directory : Directory)

/-- The files that the sources of a command line denote. -/
def sourceFiles (args : List Text) : Set Text :=
  {file | ∃ source ∈ (readCommandLine args).adaFiles,
    file = directory.resolve source}

/-- The files that the products of its sources denote. -/
def productFiles (args : List Text) : Set Text :=
  {file | ∃ path ∈ products args, file = directory.resolve path}

variable (args : List Text)

end Plans

end Driver

end AdacHybridMsp430
