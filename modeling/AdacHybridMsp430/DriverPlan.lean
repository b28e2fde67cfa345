import AdacHybridMsp430.DriverPipeline

/-!
# The plan of a run

Which tools the driver runs, and on what, depends on the command line alone;
the host only decides where a run ends early.  This file lists the steps of a
run in advance and proves that the driver takes the steps of this list, in
order, up to the first exception.
-/

namespace AdacHybridMsp430

namespace Driver

open AbortingRuns

/-- A step of the pipeline: a tool invocation, or the registration of the
constructors that an assembly file defines. -/
inductive Step
  | command (command : Command)
  | register (asmFile : Text)
deriving DecidableEq

def takeStep (host : Host) : Step → World → Outcome World
  | .command command => executeCmd host command
  | .register asmFile => registerConstructors host asmFile

/-- The loop variables after a pass of the compilation loop. -/
def LoopVariables.next (carried : LoopVariables) (file : Text) :
    LoopVariables where
  gnatOptions := .string carried.gnatOptions.join
  llcOptions := .string carried.llcOptions.join
  baseNames := carried.baseNames ++ [adaToBaseName file]

/-- The commands for a file, by the option strings. -/
def commandsFor (options : Options) (gnatText llcText file : Text) :
    List Command :=
  let baseName := adaToBaseName file
  [.llvmGcc gnatText file,
    .llc llcText (baseName ++ asmExtension) (baseName ++ bcExtension)] ++
    if options.keepAdaMain then [] else [.sed (baseName ++ asmExtension)]

/-- The commands of one pass of the compilation loop. -/
def fileCommands (options : Options) (carried : LoopVariables) (file : Text) :
    List Command :=
  commandsFor options carried.gnatOptions.join carried.llcOptions.join file

/-- The steps of one pass of the compilation loop. -/
def fileSteps (options : Options) (carried : LoopVariables) (file : Text) :
    List Step :=
  (fileCommands options carried file).map .command ++
    [.register (adaToBaseName file ++ asmExtension)]

/-- The loop variables at the start of each pass, with the file of the pass. -/
def passes : LoopVariables → List Text → List (LoopVariables × Text)
  | _, [] => []
  | carried, file :: files => (carried, file) :: passes (carried.next file) files

/-- The passes of the compilation loop on a command line. -/
def commandLinePasses (args : List Text) : List (LoopVariables × Text) :=
  let line := readCommandLine args
  passes (loopStart line) line.adaFiles

def commandLineOptions (args : List Text) : Options :=
  parseOptions {} (readCommandLine args).adacOptions

/-- The steps of the compilation loop. -/
def compilationSteps (args : List Text) : List Step :=
  (commandLinePasses args).flatMap fun pass =>
    fileSteps (commandLineOptions args) pass.1 pass.2

/-- The steps of a run that no exception ends early. -/
def plan (args : List Text) : List Step :=
  compilationSteps args ++
    [.command (.mspGcc (readCommandLine args).gccCmdLine)]

/-- The products of the sources of a command line. -/
def products (args : List Text) : List Text :=
  ((readCommandLine args).adaFiles.map adaToBaseName).flatMap intermediates

/-- The paths that the `finally` clause removes after a run that no exception
ends early. -/
def sweptPaths (args : List Text) : List Text :=
  if (commandLineOptions args).keepIntermediates then [] else products args

/-- The steps of `postprocessAsm`. -/
def postprocessingSteps (options : Options) (asmFile : Text) : List Step :=
  (if options.keepAdaMain then [] else [.command (.sed asmFile)]) ++
    [.register asmFile]

theorem postprocessAsm_eq (host : Host) (options : Options) (asmFile : Text) :
    postprocessAsm host options asmFile =
      run (takeStep host) (postprocessingSteps options asmFile) := by
  funext world
  unfold postprocessAsm postprocessingSteps
  split
  · simp [run_single, takeStep]
  · rw [run_append, run_single]
    congr 1
    funext next
    exact (run_single _ _ _).symm

theorem compileFile_eq (host : Host) (options : Options)
    (carried : LoopVariables) (file : Text) (world : World) :
    compileFile host options carried file world =
      (carried.next file,
        run (takeStep host) (fileSteps options carried file) world) := by
  have steps : fileSteps options carried file =
      [.command (.llvmGcc carried.gnatOptions.join file)] ++
        ([.command (.llc carried.llcOptions.join
            (adaToBaseName file ++ asmExtension)
            (adaToBaseName file ++ bcExtension))] ++
          postprocessingSteps options (adaToBaseName file ++ asmExtension)) := by
    cases keep : options.keepAdaMain <;>
      simp [fileSteps, fileCommands, commandsFor, postprocessingSteps, keep]
  rw [steps, run_append, run_single, compileFile]
  simp only [LoopVariables.next, Outcome.andThen_assoc]
  congr 2
  funext next
  rw [run_append, run_single, postprocessAsm_eq]
  rfl

theorem compileFiles_outcome (host : Host) (options : Options)
    (carried : LoopVariables) (files : List Text) (world : World) :
    (compileFiles host options carried files world).2 =
      run (takeStep host)
        ((passes carried files).flatMap fun pass =>
          fileSteps options pass.1 pass.2) world := by
  induction files generalizing carried world with
  | nil => rfl
  | cons file files ih =>
      rw [passes, List.flatMap_cons, run_append, compileFiles, compileFile_eq]
      cases run (takeStep host) (fileSteps options carried file) world with
      | completed next => exact ih (carried.next file) next
      | raised next => rfl

/-- The recorded base names are those of the files whose pass was started. -/
theorem compileFiles_baseNames (host : Host) (options : Options)
    (carried : LoopVariables) (files : List Text) (world : World) :
    ∃ started, started <+: files ∧
      (compileFiles host options carried files world).1.baseNames =
        carried.baseNames ++ started.map adaToBaseName := by
  induction files generalizing carried world with
  | nil => exact ⟨[], List.prefix_refl _, by simp [compileFiles]⟩
  | cons file files ih =>
      rw [compileFiles, compileFile_eq]
      cases run (takeStep host) (fileSteps options carried file) world with
      | completed next =>
          obtain ⟨started, isPrefix, names⟩ := ih (carried.next file) next
          refine ⟨file :: started, List.cons_prefix_cons.mpr ⟨rfl, isPrefix⟩, ?_⟩
          simpa [LoopVariables.next] using names
      | raised next =>
          exact ⟨[file], by simp, by simp [LoopVariables.next]⟩

/-- Every file has its base name recorded if the loop comes to its end. -/
theorem compileFiles_baseNames_of_completed {host : Host} {options : Options}
    {carried : LoopVariables} {files : List Text} {world last : World}
    (completed : (compileFiles host options carried files world).2 =
      .completed last) :
    (compileFiles host options carried files world).1.baseNames =
      carried.baseNames ++ files.map adaToBaseName := by
  induction files generalizing carried world with
  | nil => simp [compileFiles]
  | cons file files ih =>
      rw [compileFiles, compileFile_eq] at completed ⊢
      cases pass : run (takeStep host) (fileSteps options carried file) world with
      | completed next =>
          simp only [pass] at completed ⊢
          rw [ih completed]
          simp [LoopVariables.next]
      | raised next =>
          simp only [pass] at completed
          cases completed

/-- The run of the plan from the state in which the pipeline starts. -/
def planOutcome (host : Host) (args : List Text) (files : Files) :
    Outcome World :=
  run (takeStep host) (plan args) (startWorld (readCommandLine args) files)

/-- The state in which the compilation loop ends, with its variables. -/
def compiled (host : Host) (args : List Text) (files : Files) :
    LoopVariables × Outcome World :=
  compileFiles host (commandLineOptions args)
    (loopStart (readCommandLine args)) (readCommandLine args).adaFiles
    (startWorld (readCommandLine args) files)

/-- After the compilation loop, the plan has the final call left. -/
theorem planOutcome_eq (host : Host) (args : List Text) (files : Files) :
    planOutcome host args files =
      (compiled host args files).2.andThen
        (executeCmd host (.mspGcc (readCommandLine args).gccCmdLine)) := by
  rw [compiled, compileFiles_outcome, planOutcome, plan, run_append]
  congr 1
  funext world
  exact run_single _ _ _

/-- The exit of a driver whose pipeline has ended in some way, after the cleanup
for the given base names. -/
def exitAfter (host : Host) (args baseNames : List Text)
    (outcome : Outcome World) : Exit :=
  let finished := finish host (commandLineOptions args) baseNames outcome.state
  { status := if outcome.hasRaised || finished.hasRaised then 1 else 0
    world := finished.state }

/-- The driver takes the steps of its plan and cleans up after them. -/
theorem runDriver_eq_exitAfter (host : Host) (args : List Text) (files : Files) :
    runDriver host args files =
      exitAfter host args (compiled host args files).1.baseNames
        (planOutcome host args files) := by
  rw [planOutcome_eq]
  rfl

/-- The cleanup is for the files whose pass was started. -/
theorem runDriver_eq (host : Host) (args : List Text) (files : Files) :
    ∃ started, started <+: (readCommandLine args).adaFiles ∧
      runDriver host args files =
        exitAfter host args (started.map adaToBaseName)
          (planOutcome host args files) := by
  obtain ⟨started, isPrefix, names⟩ :=
    compileFiles_baseNames host (commandLineOptions args)
      (loopStart (readCommandLine args)) (readCommandLine args).adaFiles
      (startWorld (readCommandLine args) files)
  refine ⟨started, isPrefix, ?_⟩
  rw [runDriver_eq_exitAfter, compiled, names]
  simp [loopStart]

section Removals

variable (host : Host)

/-- The cleanup is a single pass over the products of all base names. -/
theorem finish_eq (options : Options) (baseNames : List Text) (world : World) :
    finish host options baseNames world =
      if options.keepIntermediates then .completed world
      else run (remove host) (baseNames.flatMap intermediates) world := by
  rw [finish, run_flatMap]
  rfl

/-- The path exists, and its removal or the announcement of it raises an
exception. -/
def Irremovable (path : Text) (world : World) : Prop :=
  (world.files (host.resolve path)).isSome = true ∧
    (host.announceRaises path = true ∨ host.removeRaises path = true)

/-- What a removal does, and when it raises an exception. -/
theorem remove_cases (path : Text) (world : World) :
    (Irremovable host path world ∧ ∃ next, remove host path world = .raised next ∧
      next.files = world.files ∧ next.removed = world.removed) ∨
    (¬ Irremovable host path world ∧ ∃ next,
      remove host path world = .completed next ∧
      next.files = Function.update world.files (host.resolve path) none ∧
      ((world.files (host.resolve path)).isSome = true ∧
          next.removed = world.removed ++ [path] ∨
        world.files (host.resolve path) = none ∧
          next.removed = world.removed)) := by
  unfold remove Irremovable
  cases found : world.files (host.resolve path) with
  | none =>
      refine Or.inr ⟨by simp, world, by simp, ?_, Or.inr ⟨rfl, rfl⟩⟩
      rw [← found, Function.update_eq_self]
  | some content =>
      cases announces : host.announceRaises path with
      | true => exact Or.inl ⟨by simp, world, by simp, rfl, rfl⟩
      | false =>
          cases removes : host.removeRaises path with
          | true =>
              refine Or.inl ⟨by simp,
                { world with stdout := world.stdout ++
                    ["Removing intermediate product ".toList ++ path] },
                by simp, rfl, rfl⟩
          | false =>
              refine Or.inr ⟨by simp,
                { world with
                  stdout := world.stdout ++
                    ["Removing intermediate product ".toList ++ path]
                  files := Function.update world.files (host.resolve path) none
                  removed := world.removed ++ [path] },
                by simp, rfl, Or.inl ⟨by simp, rfl⟩⟩

/-- The products have names without a directory. -/
theorem slash_not_mem_of_mem_intermediates {file path : Text}
    (member : path ∈ intermediates (adaToBaseName file)) : '/' ∉ path := by
  have base := slash_not_mem_adaToBaseName file
  simp only [intermediates, List.mem_cons, List.not_mem_nil, or_false] at member
  rcases member with rfl | rfl | rfl
  · simpa [asmExtension] using base
  · simpa [bcExtension] using base
  · simpa [aliExtension] using base

variable {host}

/-- The removal of a file of the working directory does not matter for that of
another one. -/
theorem irremovable_iff_of_removed {path other : Text} {world next : World}
    (flat : '/' ∉ path) (flatOther : '/' ∉ other)
    (removable : ¬ Irremovable host path world)
    (files : next.files =
      Function.update world.files (host.resolve path) none) :
    Irremovable host other next ↔ Irremovable host other world := by
  by_cases same : host.resolve other = host.resolve path
  · obtain rfl := host.resolve_injective flatOther flat same
    exact iff_of_false (by simp [Irremovable, files]) removable
  · simp [Irremovable, files, same]

variable (host)

theorem slash_not_mem_of_mem_sweptPaths (args : List Text) :
    ∀ path ∈ sweptPaths args, '/' ∉ path := by
  intro path member
  unfold sweptPaths products at member
  split at member
  · cases member
  · obtain ⟨name, nameMem, product⟩ := List.mem_flatMap.mp member
    obtain ⟨file, _, rfl⟩ := List.mem_map.mp nameMem
    exact slash_not_mem_of_mem_intermediates product

/-- After a run that no exception ends early, the cleanup is for all sources. -/
theorem finish_eq_run_sweptPaths (args : List Text) (world : World) :
    finish host (commandLineOptions args)
        ((readCommandLine args).adaFiles.map adaToBaseName) world =
      run (remove host) (sweptPaths args) world := by
  rw [finish_eq, sweptPaths, products]
  split <;> rfl

/-- Removing files of the working directory raises an exception exactly when one
of them cannot be removed. -/
theorem run_remove_hasRaised_iff {paths : List Text}
    (flat : ∀ path ∈ paths, '/' ∉ path) (world : World) :
    (run (remove host) paths world).hasRaised = true ↔
      ∃ path ∈ paths, Irremovable host path world := by
  induction paths generalizing world with
  | nil => simp
  | cons path paths ih =>
      have tail := ih fun other member => flat other (by simp [member])
      rw [run_cons, List.exists_mem_cons_iff]
      rcases remove_cases host path world with
        ⟨irremovable, next, raises, _⟩ | ⟨removable, next, completes, files, _⟩
      · rw [raises]
        simp [irremovable]
      · rw [completes, Outcome.andThen_completed, tail, or_iff_right removable]
        apply exists_congr
        intro other
        apply and_congr_right
        intro member
        exact irremovable_iff_of_removed (flat path (by simp))
          (flat other (by simp [member])) removable files

end Removals

section Frame

/-- A registration issues no command. -/
theorem registerConstructors_issued (host : Host) (asmFile : Text)
    (world : World) :
    (registerConstructors host asmFile world).state.issued = world.issued := by
  unfold registerConstructors appendConstructorSections
  split
  · rfl
  · split
    · rfl
    · split <;> rfl

theorem executeCmd_issued (host : Host) (command : Command) (world : World) :
    (executeCmd host command world).state.issued =
      world.issued ++
        [(command, (host.system world.issued.length command world.files).1)] := by
  unfold executeCmd
  dsimp only
  split <;> rfl

/-- The driver only ever extends the record of issued commands. -/
theorem issued_prefix_takeStep (host : Host) (step : Step) (world : World) :
    world.issued <+: (takeStep host step world).state.issued := by
  cases step with
  | command command =>
      rw [takeStep, executeCmd_issued]
      exact List.prefix_append _ _
  | register asmFile => rw [takeStep, registerConstructors_issued]

@[simp]
theorem remove_issued (host : Host) (path : Text) (world : World) :
    (remove host path world).state.issued = world.issued := by
  unfold remove
  split
  · split
    · rfl
    · dsimp only
      split <;> rfl
  · rfl

@[simp]
theorem finish_issued (host : Host) (options : Options)
    (baseNames : List Text) (world : World) :
    (finish host options baseNames world).state.issued = world.issued := by
  rw [finish_eq]
  split
  · rfl
  · exact run_relation (remove host)
      (fun first second => second.issued = first.issued) (fun _ => rfl)
      (fun first second => second.trans first) (remove_issued host) _ world

end Frame

end Driver

end AdacHybridMsp430
