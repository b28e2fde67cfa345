import AdacHybridMsp430.DriverIntermediateFiles

/-!
# Cleaning up after a run

Wherever a run ends, the `finally` clause removes the intermediate products of
the sources whose compilation was started, and nothing else; with
`keep_intermediates` it removes nothing at all.  An exception raised by a removal
ends the clause early.  This file proves that no product is left behind exactly
when no removal raises one.
-/

namespace AdacHybridMsp430

namespace Driver

open AbortingRuns PathNames

/-- The compilation of a source starts with the invocation of the front end. -/
def Started (file : Text) (world : World) : Prop :=
  ∃ gnatOptions status, (.llvmGcc gnatOptions file, status) ∈ world.issued

/-- The user has asked for the intermediate products. -/
def KeepsIntermediates (args : List Text) : Prop :=
  "keep_intermediates".toList ∈ (readCommandLine args).adacOptions

/-- A path is one of the three intermediate products of a source. -/
def IsProduct (file path : Text) : Prop :=
  ∃ suffix ∈ [".s", ".bc", ".ali"],
    path = (splitext (basename file)).1 ++ suffix.toList

/-- A run has cleaned up: the products of the started sources are gone, unless
they were asked for, the driver has removed nothing but such products, and
every other file is as the pipeline left it. -/
structure CleanedUp (host : Host) (args : List Text) (files : Files)
    (world : World) : Prop where
  swept : ¬ KeepsIntermediates args → ∀ file, Started file world →
    ∀ path, IsProduct file path → world.files (host.resolve path) = none
  removedProducts : ∀ path ∈ world.removed, ∃ file, Started file world ∧
    IsProduct file path
  kept : KeepsIntermediates args → world.removed = []
  untouched : ∀ file, (∀ path ∈ world.removed, file ≠ host.resolve path) →
    world.files file = (planOutcome host args files).state.files file

theorem mem_intermediates_iff {file path : Text} :
    path ∈ intermediates (adaToBaseName file) ↔ IsProduct file path := by
  simp [intermediates, IsProduct, adaToBaseName, asmExtension, bcExtension,
    aliExtension]

section StartedFiles

variable (host : Host)

theorem started_executeCmd_iff (command : Command) (world : World)
    (file : Text) :
    Started file (executeCmd host command world).state ↔
      Started file world ∨ ∃ gnatOptions, command = .llvmGcc gnatOptions file := by
  simp only [Started, executeCmd_issued, List.mem_append, List.mem_singleton,
    Prod.mk.injEq]
  constructor
  · rintro ⟨gnatOptions, status', old | ⟨new, _⟩⟩
    · exact Or.inl ⟨gnatOptions, status', old⟩
    · exact Or.inr ⟨gnatOptions, new.symm⟩
  · rintro (⟨gnatOptions, status', old⟩ | ⟨gnatOptions, new⟩)
    · exact ⟨gnatOptions, status', Or.inl old⟩
    · exact ⟨gnatOptions, _, Or.inr ⟨new.symm, rfl⟩⟩

theorem started_registerConstructors_iff (asmFile : Text) (world : World)
    (file : Text) :
    Started file (registerConstructors host asmFile world).state ↔
      Started file world := by
  rw [Started, registerConstructors_issued, Started]

/-- The steps after the front end start no other source. -/
theorem started_run_iff {file : Text} {steps : List Step}
    (others : ∀ gnatOptions, .command (.llvmGcc gnatOptions file) ∉ steps)
    (world : World) :
    Started file (run (takeStep host) steps world).state ↔
      Started file world := by
  induction steps generalizing world with
  | nil => rfl
  | cons step steps ih =>
      have here : Started file (takeStep host step world).state ↔
          Started file world := by
        cases step with
        | command command =>
            apply (started_executeCmd_iff host command world file).trans
            refine or_iff_left ?_
            rintro ⟨gnatOptions, rfl⟩
            exact others gnatOptions (by simp)
        | register asmFile =>
            exact started_registerConstructors_iff host asmFile world file
      rw [run_cons]
      cases outcome : takeStep host step world with
      | completed next =>
          rw [outcome] at here
          exact (ih (fun gnatOptions member =>
            others gnatOptions (by simp [member])) next).trans here
      | raised next =>
          rw [outcome] at here
          exact here

/-- A pass of the compilation loop starts its file, wherever it ends. -/
theorem started_compileFile_iff (options : Options) (carried : LoopVariables)
    (source : Text) (world : World) (file : Text) :
    Started file
        (compileFile host options carried source world).2.state ↔
      Started file world ∨ file = source := by
  rw [compileFile_eq]
  have steps : ∃ gnatText rest,
      fileSteps options carried source =
        .command (.llvmGcc gnatText source) :: rest ∧
      ∀ gnatOptions, .command (.llvmGcc gnatOptions file) ∉ rest := by
    refine ⟨_, _, rfl, ?_⟩
    intro gnatOptions
    cases options.keepAdaMain <;> simp
  obtain ⟨gnatText, rest, steps, others⟩ := steps
  have first := started_executeCmd_iff host (.llvmGcc gnatText source) world file
  have sameFile : (∃ gnatOptions,
      Command.llvmGcc gnatText source = .llvmGcc gnatOptions file) ↔
        file = source := by
    constructor
    · rintro ⟨gnatOptions, same⟩
      injection same with _ same
      exact same.symm
    · rintro rfl
      exact ⟨gnatText, rfl⟩
  rw [sameFile] at first
  rw [steps, run_cons, takeStep]
  cases outcome : executeCmd host (.llvmGcc gnatText source) world with
  | completed next =>
      rw [outcome] at first
      exact (started_run_iff host others next).trans first
  | raised next =>
      rw [outcome] at first
      exact first

/-- The base names that the compilation loop records are those of the sources
that it has started. -/
theorem started_compileFiles (options : Options) (carried : LoopVariables)
    (sources : List Text) (world : World) :
    ∃ started : List Text,
      (compileFiles host options carried sources world).1.baseNames =
        carried.baseNames ++ started.map adaToBaseName ∧
      ∀ file,
        Started file
            (compileFiles host options carried sources world).2.state ↔
          Started file world ∨ file ∈ started := by
  induction sources generalizing carried world with
  | nil => exact ⟨[], by simp [compileFiles], by simp [compileFiles]⟩
  | cons source sources ih =>
      have pass := started_compileFile_iff host options carried source world
      rw [compileFiles]
      rw [compileFile_eq] at pass ⊢
      cases outcome : run (takeStep host) (fileSteps options carried source)
          world with
      | completed next =>
          obtain ⟨started, names, starts⟩ := ih (carried.next source) next
          simp only [outcome] at pass
          refine ⟨source :: started, ?_, ?_⟩
          · simpa [LoopVariables.next] using names
          · intro file
            rw [starts, show Started file next ↔ _ from pass file, or_assoc,
              List.mem_cons]
      | raised next =>
          simp only [outcome] at pass
          refine ⟨[source], by simp [LoopVariables.next], ?_⟩
          intro file
          rw [List.mem_singleton]
          exact pass file

end StartedFiles

section Removals

variable (host : Host)

theorem removed_takeStep (step : Step) (world : World) :
    (takeStep host step world).state.removed = world.removed := by
  cases step with
  | command command =>
      simp only [takeStep, executeCmd]
      split <;> rfl
  | register asmFile =>
      simp only [takeStep, registerConstructors, appendConstructorSections]
      split
      · rfl
      · split
        · rfl
        · split <;> rfl

/-- The pipeline itself removes nothing. -/
theorem removed_planOutcome (args : List Text) (files : Files) :
    (planOutcome host args files).state.removed = [] :=
  (run_relation (takeStep host)
    (fun first second => second.removed = first.removed) (fun _ => rfl)
    (fun first second => second.trans first) (removed_takeStep host) _ _)

/-- Removals record what they remove, and leave the other files alone. -/
theorem run_remove_recorded (paths : List Text) (world : World) :
    ∃ now, (run (remove host) paths world).state.removed = world.removed ++ now ∧
      (∀ path ∈ now, path ∈ paths) ∧
      ∀ file, (∀ path ∈ now, file ≠ host.resolve path) →
        (run (remove host) paths world).state.files file = world.files file := by
  induction paths generalizing world with
  | nil => exact ⟨[], by simp, by simp, fun _ _ => rfl⟩
  | cons path paths ih =>
      rw [run_cons]
      rcases remove_cases host path world with
        ⟨_, next, raises, files, removed⟩ | ⟨_, next, completes, files, removed⟩
      · rw [raises]
        exact ⟨[], by simp [removed], by simp, fun _ _ => congrFun files _⟩
      · obtain ⟨later, laterRemoved, products, kept⟩ := ih next
        rw [completes, Outcome.andThen_completed, laterRemoved]
        rcases removed with ⟨_, removed⟩ | ⟨absent, removed⟩
        · refine ⟨path :: later, by simp [removed], ?_, ?_⟩
          · intro other member
            rcases List.mem_cons.mp member with rfl | old
            · exact List.mem_cons_self
            · exact List.mem_cons_of_mem _ (products other old)
          · intro file different
            rw [kept file fun other member => different other (by simp [member]),
              files, Function.update_of_ne (different path (by simp))]
        · refine ⟨later, by rw [removed], fun other member =>
            List.mem_cons_of_mem _ (products other member), ?_⟩
          intro file different
          rw [kept file different, files]
          by_cases same : file = host.resolve path
          · rw [same, Function.update_self, absent]
          · exact Function.update_of_ne same _ _

/-- Files of the working directory are all gone after their removal exactly when
each of them can be removed. -/
theorem run_remove_gone_iff {paths : List Text}
    (flat : ∀ path ∈ paths, '/' ∉ path) (world : World) :
    (∀ path ∈ paths,
        (run (remove host) paths world).state.files (host.resolve path) = none) ↔
      ∀ path ∈ paths, ¬ Irremovable host path world := by
  induction paths generalizing world with
  | nil => simp
  | cons path paths ih =>
      rw [run_cons, List.forall_mem_cons, List.forall_mem_cons]
      rcases remove_cases host path world with
        ⟨irremovable, next, raises, files, _⟩ |
        ⟨removable, next, completes, files, _⟩
      · rw [raises, Outcome.andThen_raised, Outcome.state_raised, files]
        apply iff_of_false
        · rintro ⟨gone, _⟩
          simpa [gone] using irremovable.1
        · exact fun removable => removable.1 irremovable
      · have gone : (run (remove host) paths next).state.files
            (host.resolve path) = none := by
          rcases run_remove_files host paths next (host.resolve path) with
            same | ⟨none, _⟩
          · rw [same, files, Function.update_self]
          · exact none
        rw [completes, Outcome.andThen_completed,
          ih (fun other member => flat other (by simp [member])) next]
        apply and_congr (iff_of_true gone removable)
        apply forall₂_congr
        intro other member
        exact not_congr (irremovable_iff_of_removed (flat path (by simp))
          (flat other (by simp [member])) removable files)

end Removals

theorem keepIntermediates_commandLineOptions (args : List Text) :
    (commandLineOptions args).keepIntermediates = true ↔
      KeepsIntermediates args := by
  change _ ↔ keepIntermediates ∈ (readCommandLine args).adacOptions
  simp [commandLineOptions, parseOptions]

/-- What the `finally` clause does. -/
theorem finish_cases (host : Host) (args baseNames : List Text)
    (world : World) :
    (KeepsIntermediates args ∧
      finish host (commandLineOptions args) baseNames world =
        .completed world) ∨
    (¬ KeepsIntermediates args ∧
      finish host (commandLineOptions args) baseNames world =
        run (remove host) (baseNames.flatMap intermediates) world) := by
  rw [finish_eq]
  by_cases keeps : KeepsIntermediates args
  · exact Or.inl ⟨keeps,
      if_pos ((keepIntermediates_commandLineOptions args).mpr keeps)⟩
  · exact Or.inr ⟨keeps,
      if_neg ((keepIntermediates_commandLineOptions args).not.mpr keeps)⟩

/-- At the end of the pipeline, the base names to clean up are those of the
started sources. -/
theorem runDriver_started (host : Host) (args : List Text) (files : Files) :
    ∃ started : List Text,
      (runDriver host args files).world =
        (finish host (commandLineOptions args) (started.map adaToBaseName)
          (planOutcome host args files).state).state ∧
      ∀ file, Started file (planOutcome host args files).state ↔
        file ∈ started := by
  obtain ⟨started, names, starts⟩ := started_compileFiles host
    (commandLineOptions args) (loopStart (readCommandLine args))
    (readCommandLine args).adaFiles (startWorld (readCommandLine args) files)
  refine ⟨started, ?_, ?_⟩
  · rw [runDriver_eq_exitAfter, compiled, names]
    simp [loopStart, exitAfter]
  · intro file
    have fresh : ¬ Started file (startWorld (readCommandLine args) files) := by
      simp [Started, startWorld]
    have looped : Started file (compiled host args files).2.state ↔
        file ∈ started := (starts file).trans (or_iff_right fresh)
    rw [planOutcome_eq, ← looped]
    cases (compiled host args files).2 with
    | completed next =>
        apply (started_executeCmd_iff host _ next file).trans
        simp
    | raised next => rfl

/-- The products to remove are those of the started sources. -/
theorem mem_swept_iff {started : List Text} {path : Text} :
    path ∈ (started.map adaToBaseName).flatMap intermediates ↔
      ∃ file ∈ started, IsProduct file path := by
  simp [mem_intermediates_iff]

/-- A run cleans up, wherever it ends, exactly when the products are to be kept or
no product of a started source is irremovable after the pipeline. -/
theorem cleanedUp_runDriver_iff (host : Host) (args : List Text)
    (files : Files) :
    CleanedUp host args files (runDriver host args files).world ↔
      KeepsIntermediates args ∨
        ∀ file, Started file (planOutcome host args files).state →
          ∀ path, IsProduct file path →
            ¬ Irremovable host path (planOutcome host args files).state := by
  obtain ⟨started, world, starts⟩ := runDriver_started host args files
  have removed := removed_planOutcome host args files
  have issued := finish_issued host (commandLineOptions args)
    (started.map adaToBaseName) (planOutcome host args files).state
  have same : ∀ file, Started file (runDriver host args files).world ↔
      file ∈ started := by
    intro file
    rw [← starts file, world, Started, issued, Started]
  simp only [starts]
  rcases finish_cases host args (started.map adaToBaseName)
      (planOutcome host args files).state with ⟨keeps, kept⟩ | ⟨drops, swept⟩
  · rw [kept, Outcome.state_completed] at world
    refine iff_of_true ?_ (Or.inl keeps)
    exact
      { swept := fun drops => absurd keeps drops
        removedProducts := by rw [world, removed]; simp
        kept := fun _ => by rw [world, removed]
        untouched := fun file _ => by rw [world] }
  · rw [swept] at world
    have flat : ∀ path ∈ (started.map adaToBaseName).flatMap intermediates,
        '/' ∉ path := by
      intro path member
      obtain ⟨file, _, product⟩ := mem_swept_iff.mp member
      exact slash_not_mem_of_mem_intermediates (mem_intermediates_iff.mpr product)
    have gone := run_remove_gone_iff host flat (planOutcome host args files).state
    obtain ⟨now, recorded, products, others⟩ := run_remove_recorded host
      ((started.map adaToBaseName).flatMap intermediates)
      (planOutcome host args files).state
    rw [← world] at gone recorded others
    rw [removed, List.nil_append] at recorded
    rw [or_iff_right drops]
    constructor
    · intro cleaned file fileMem path product
      apply gone.mp _ path (mem_swept_iff.mpr ⟨file, fileMem, product⟩)
      intro other otherMem
      obtain ⟨source, sourceMem, otherProduct⟩ := mem_swept_iff.mp otherMem
      exact cleaned.swept drops source ((same source).mpr sourceMem) other
        otherProduct
    · intro removable
      have allGone := gone.mpr fun path member => by
        obtain ⟨file, fileMem, product⟩ := mem_swept_iff.mp member
        exact removable file fileMem path product
      exact
        { swept := fun _ file isStarted path product =>
            allGone path (mem_swept_iff.mpr ⟨file, (same file).mp isStarted, product⟩)
          removedProducts := by
            intro path member
            rw [recorded] at member
            obtain ⟨file, fileMem, product⟩ := mem_swept_iff.mp (products path member)
            exact ⟨file, (same file).mpr fileMem, product⟩
          kept := fun keeps => absurd keeps drops
          untouched := by
            intro file different
            rw [recorded] at different
            exact others file different }

/-- A host on which `a.s` is a directory: the front end works, the later tools and
the removal of `a.s` fail. -/
def asmDirectoryHost : Host where
  toDirectory := plainDirectory
  system _ command files :=
    match command with
    | .llvmGcc _ _ =>
        (0, Function.update (Function.update files "a.bc".toList (some []))
          "a.ali".toList (some []))
    | _ => (1, files)
  systemRaises _ := false
  readRaises _ := true
  appendRaises _ := false
  removeRaises path := decide (path = "a.s".toList)

/-- The directory `a.s` cannot be removed, and the bitcode of `a.adb` stays. -/
theorem not_cleanedUp_asmDirectory :
    ¬ CleanedUp asmDirectoryHost ["a.adb".toList]
      (fun path => if path = "a.adb".toList ∨ path = "a.s".toList then some []
        else none)
      (runDriver asmDirectoryHost ["a.adb".toList] fun path =>
        if path = "a.adb".toList ∨ path = "a.s".toList then some []
        else none).world := by
  intro cleaned
  have gone := cleaned.swept (by unfold KeepsIntermediates; decide)
    "a.adb".toList ⟨[], 0, by decide +kernel⟩ "a.bc".toList
    ⟨".bc", by simp, by decide +kernel⟩
  revert gone
  decide +kernel

end Driver

end AdacHybridMsp430
