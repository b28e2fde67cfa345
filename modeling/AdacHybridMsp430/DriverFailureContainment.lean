import AdacHybridMsp430.DriverPlan

/-!
# Containing the failure of a tool

The driver drops the status of every tool.  A failure ends the run only
indirectly, when the constructors of an assembly file are to be registered and
the file cannot be opened.  This file proves that a run contains its failures
exactly when each failing tool is caught in this way at once.
-/

namespace AdacHybridMsp430

namespace Driver

open AbortingRuns Assembly

/-- No command follows a failed one. -/
def StopsAtFailure (issued : List (Command × Nat)) : Prop :=
  ∀ before entry after, issued = before ++ entry :: after →
    entry.2 ≠ 0 → after = []

/-- A run ends with status 0 only if all its commands succeeded, and it issues
no command after one that failed. -/
structure FailuresContained (exit : Exit) : Prop where
  zeroOnlyOnSuccess : exit.status = 0 →
    ∀ entry ∈ exit.world.issued, entry.2 = 0
  stops : StopsAtFailure exit.world.issued

/-- The constructors of a file cannot be registered: it does not exist, reading
it raises an exception, or there are constructors and appending raises one. -/
def Unregistrable (host : Host) (asmFile : Text) (world : World) : Prop :=
  world.files (host.resolve asmFile) = none ∨
    host.readRaises world.issued.length = true ∨
      (host.appendRaises world.issued.length = true ∧
        ∃ text, world.files (host.resolve asmFile) = some text ∧
          contructorNames text ≠ [])

/-- The tool of a step ends with a nonzero status. -/
def Fails (host : Host) : Step → World → Prop
  | .command command, world =>
      (host.system world.issued.length command world.files).1 ≠ 0
  | .register _, _ => False

/-- Every failing tool either makes `os.system` raise an exception, or is
followed directly by the registration of constructors that cannot be
registered, or is the last one, and a path to be removed then cannot be
removed. -/
def FailuresCaught (host : Host) (swept : List Text) : List Step → World → Prop
  | [], _ => True
  | step :: steps, world =>
      match takeStep host step world with
      | .raised _ => True
      | .completed next =>
          (Fails host step world →
              (∃ asmFile rest, steps = .register asmFile :: rest ∧
                Unregistrable host asmFile next) ∨
              (steps = [] ∧ ∃ path ∈ swept, Irremovable host path next)) ∧
            FailuresCaught host swept steps next

/-- Each registration is followed by a command. -/
def RegistersBeforeCommands : List Step → Prop
  | [] => True
  | .command _ :: rest => RegistersBeforeCommands rest
  | .register _ :: rest =>
      (∃ command tail, rest = .command command :: tail) ∧
        RegistersBeforeCommands rest

theorem registerConstructors_hasRaised_iff (host : Host) (asmFile : Text)
    (world : World) :
    (registerConstructors host asmFile world).hasRaised = true ↔
      Unregistrable host asmFile world := by
  unfold registerConstructors findContructorNames appendConstructorSections
    Unregistrable
  cases reads : host.readRaises world.issued.length with
  | true => simp
  | false =>
      cases file : world.files (host.resolve asmFile) with
      | none => simp
      | some text =>
          cases names : contructorNames text with
          | nil => simp [names]
          | cons name rest =>
              cases appends : host.appendRaises world.issued.length <;>
                simp [names]

theorem issued_prefix_run (host : Host) (steps : List Step) (world : World) :
    world.issued <+: (run (takeStep host) steps world).state.issued :=
  run_relation (takeStep host)
    (fun first second => first.issued <+: second.issued)
    (fun _ => List.prefix_refl _) (fun first second => first.trans second)
    (issued_prefix_takeStep host) steps world

def AllSucceeded (issued : List (Command × Nat)) : Prop :=
  ∀ entry ∈ issued, entry.2 = 0

theorem AllSucceeded.of_prefix {before after : List (Command × Nat)}
    (succeeded : AllSucceeded after) (isPrefix : before <+: after) :
    AllSucceeded before :=
  fun entry member => succeeded entry (isPrefix.subset member)

/-- The outcome of a run, before some paths are removed, contains the failures in
it. -/
def Contained (host : Host) (swept : List Text) (outcome : Outcome World) :
    Prop :=
  (outcome.hasRaised = false →
      (¬ ∃ path ∈ swept, Irremovable host path outcome.state) →
        AllSucceeded outcome.state.issued) ∧
    StopsAtFailure outcome.state.issued

theorem stopsAtFailure_of_allSucceeded {issued : List (Command × Nat)}
    (succeeded : AllSucceeded issued) : StopsAtFailure issued := by
  rintro before entry after rfl failed
  exact absurd (succeeded entry (by simp)) failed

/-- Only the last of the commands may have failed. -/
theorem stopsAtFailure_append_single {issued : List (Command × Nat)}
    (succeeded : AllSucceeded issued) (last : Command × Nat) :
    StopsAtFailure (issued ++ [last]) := by
  intro before entry after split failed
  by_contra nonempty
  have shorter : issued = before ++ entry :: after.dropLast := by
    have dropped := congrArg List.dropLast split
    rwa [List.dropLast_concat, List.dropLast_append_of_ne_nil (by simp),
      List.dropLast_cons_of_ne_nil nonempty] at dropped
  exact failed (succeeded entry (by simp [shorter]))

/-- A step that does not fail leaves only successes. -/
theorem allSucceeded_takeStep {host : Host} {step : Step} {world : World}
    (succeeded : AllSucceeded world.issued) (notFails : ¬ Fails host step world) :
    AllSucceeded (takeStep host step world).state.issued := by
  cases step with
  | register asmFile =>
      simpa only [takeStep, registerConstructors_issued] using succeeded
  | command command =>
      intro entry member
      rw [takeStep, executeCmd_issued, List.mem_append,
        List.mem_singleton] at member
      rcases member with old | rfl
      · exact succeeded entry old
      · simpa [Fails] using notFails

/-- Whatever the step does, the commands stop at a failure there. -/
theorem stopsAtFailure_takeStep {host : Host} {step : Step} {world : World}
    (succeeded : AllSucceeded world.issued) :
    StopsAtFailure (takeStep host step world).state.issued := by
  cases step with
  | register asmFile =>
      simpa only [takeStep, registerConstructors_issued] using
        stopsAtFailure_of_allSucceeded succeeded
  | command command =>
      rw [takeStep, executeCmd_issued]
      exact stopsAtFailure_append_single succeeded _

theorem issued_prefix_run_cons (host : Host) (step : Step) (steps : List Step)
    (world : World) :
    (takeStep host step world).state.issued <+:
      (run (takeStep host) (step :: steps) world).state.issued := by
  rw [run_cons]
  cases takeStep host step world with
  | completed next => exact issued_prefix_run host steps next
  | raised next => exact List.prefix_refl _

/-- A command after a failed one does not stop at the failure. -/
theorem not_stopsAtFailure_run_command {host : Host} {world : World}
    {front : List (Command × Nat)} {entry : Command × Nat}
    (issued : world.issued = front ++ [entry]) (failed : entry.2 ≠ 0)
    (command : Command) (steps : List Step) :
    ¬ StopsAtFailure
      (run (takeStep host) (.command command :: steps) world).state.issued := by
  intro stops
  obtain ⟨later, laterEq⟩ :=
    issued_prefix_run_cons host (.command command) steps world
  rw [takeStep, executeCmd_issued, issued] at laterEq
  have empty := stops front entry _
    (by rw [← laterEq, List.append_assoc, List.append_assoc]; rfl) failed
  simp at empty

/-- After a failed command the rest of a run contains the failure exactly when
it starts with a registration that raises an exception, or nothing but a removal
that raises one is left. -/
theorem contained_after_failure_iff {host : Host} {swept : List Text}
    {world : World} {steps : List Step} {front : List (Command × Nat)}
    {entry : Command × Nat} (issued : world.issued = front ++ [entry])
    (failed : entry.2 ≠ 0) (stops : StopsAtFailure world.issued)
    (shape : RegistersBeforeCommands steps) :
    Contained host swept (run (takeStep host) steps world) ↔
      (∃ asmFile rest, steps = .register asmFile :: rest ∧
        Unregistrable host asmFile world) ∨
      (steps = [] ∧ ∃ path ∈ swept, Irremovable host path world) := by
  cases steps with
  | nil =>
      simp only [run_nil, reduceCtorEq, false_and, exists_false, false_or,
        true_and]
      constructor
      · rintro ⟨succeeded, _⟩
        by_contra removable
        exact failed (succeeded rfl removable entry (by simp [issued]))
      · exact fun irremovable =>
          ⟨fun _ removable => absurd irremovable removable, stops⟩
  | cons step steps =>
      simp only [reduceCtorEq, false_and, or_false]
      cases step with
      | command command =>
          simp only [List.cons.injEq, reduceCtorEq, false_and, exists_false,
            iff_false]
          exact fun contained =>
            not_stopsAtFailure_run_command issued failed command steps
              contained.2
      | register asmFile =>
          have sameIssued := registerConstructors_issued host asmFile world
          simp only [List.cons.injEq, Step.register.injEq, and_assoc,
            exists_eq_left', exists_and_left,
            ← registerConstructors_hasRaised_iff, run_cons, takeStep]
          cases outcome : registerConstructors host asmFile world with
          | raised next =>
              rw [outcome] at sameIssued
              simpa [Contained, show next.issued = world.issued from sameIssued]
                using stops
          | completed next =>
              rw [outcome] at sameIssued
              obtain ⟨command, tail, rfl⟩ := shape.1
              simp only [Outcome.andThen_completed, Outcome.hasRaised_completed,
                Bool.false_eq_true, iff_false]
              exact fun contained =>
                not_stopsAtFailure_run_command
                  ((show next.issued = world.issued from sameIssued).trans issued)
                  failed command tail contained.2

/-- A run from a state without failures contains the failures in it exactly
when they are all caught. -/
theorem contained_run_iff {host : Host} {swept : List Text} {steps : List Step}
    {world : World} (succeeded : AllSucceeded world.issued)
    (shape : RegistersBeforeCommands steps) :
    Contained host swept (run (takeStep host) steps world) ↔
      FailuresCaught host swept steps world := by
  induction steps generalizing world with
  | nil =>
      exact iff_of_true
        ⟨fun _ _ => succeeded, stopsAtFailure_of_allSucceeded succeeded⟩ trivial
  | cons step steps ih =>
      have stops : StopsAtFailure (takeStep host step world).state.issued :=
        stopsAtFailure_takeStep succeeded
      have tailShape : RegistersBeforeCommands steps := by
        cases step with
        | command command => exact shape
        | register asmFile => exact shape.2
      rw [run_cons, FailuresCaught]
      cases outcome : takeStep host step world with
      | raised next =>
          rw [outcome] at stops
          simpa [Contained] using stops
      | completed next =>
          rw [outcome, Outcome.state_completed] at stops
          rw [Outcome.andThen_completed]
          dsimp only
          by_cases failed : Fails host step world
          · cases step with
            | register asmFile => exact failed.elim
            | command command =>
                have issued := executeCmd_issued host command world
                have step : executeCmd host command world = .completed next :=
                  outcome
                rw [step, Outcome.state_completed] at issued
                rw [contained_after_failure_iff issued failed stops tailShape]
                refine ⟨fun caught => ⟨fun _ => caught, ?_⟩,
                  fun caught => caught.1 failed⟩
                rcases caught with
                  ⟨asmFile, rest, rfl, unregistrable⟩ | ⟨rfl, _⟩
                · rw [← registerConstructors_hasRaised_iff] at unregistrable
                  rw [FailuresCaught, takeStep]
                  cases registered : registerConstructors host asmFile next with
                  | raised last => trivial
                  | completed last => simp [registered] at unregistrable
                · trivial
          · have stillSucceeded := allSucceeded_takeStep succeeded failed
            rw [outcome, Outcome.state_completed] at stillSucceeded
            rw [ih stillSucceeded tailShape]
            exact (and_iff_right fun fails => absurd fails failed).symm

theorem registersBeforeCommands_plan (args : List Text) :
    RegistersBeforeCommands (plan args) := by
  unfold plan compilationSteps
  induction commandLinePasses args with
  | nil => trivial
  | cons pass passes ih =>
      have starts : ∃ command tail,
          (passes.flatMap fun pass =>
            fileSteps (commandLineOptions args) pass.1 pass.2) ++
              [.command (.mspGcc (readCommandLine args).gccCmdLine)] =
            Step.command command :: tail := by
        cases passes with
        | nil => exact ⟨_, _, rfl⟩
        | cons second rest => exact ⟨_, _, rfl⟩
      rw [List.flatMap_cons, List.append_assoc, fileSteps, List.append_assoc]
      cases keep : (commandLineOptions args).keepAdaMain <;>
        simpa [fileCommands, commandsFor, keep, RegistersBeforeCommands]
          using And.intro starts ih

/-- The status of a driver is 0 if nothing raises an exception, the removal of the
products included. -/
theorem runDriver_status_eq_zero_iff (host : Host) (args : List Text)
    (files : Files) :
    (runDriver host args files).status = 0 ↔
      (planOutcome host args files).hasRaised = false ∧
        ¬ ∃ path ∈ sweptPaths args,
          Irremovable host path (planOutcome host args files).state := by
  rw [runDriver_eq_exitAfter]
  cases ends : planOutcome host args files with
  | raised last => simp [exitAfter]
  | completed last =>
      have looped : ∃ next, (compiled host args files).2 = .completed next := by
        rw [planOutcome_eq] at ends
        cases loop : (compiled host args files).2 with
        | completed next => exact ⟨next, rfl⟩
        | raised next =>
            rw [loop] at ends
            cases ends
      obtain ⟨next, looped⟩ := looped
      have names : (compiled host args files).1.baseNames =
          (readCommandLine args).adaFiles.map adaToBaseName :=
        (compileFiles_baseNames_of_completed looped).trans (List.nil_append _)
      have sweeps := run_remove_hasRaised_iff host
        (slash_not_mem_of_mem_sweptPaths args) last
      rw [exitAfter, names, finish_eq_run_sweptPaths, Outcome.state_completed,
        ← sweeps]
      cases (run (remove host) (sweptPaths args) last).hasRaised <;> simp

/-- The driver contains the failures of its tools exactly when every failing
tool is caught at once. -/
theorem failuresContained_runDriver_iff (host : Host) (args : List Text)
    (files : Files) :
    FailuresContained (runDriver host args files) ↔
      FailuresCaught host (sweptPaths args) (plan args)
        (startWorld (readCommandLine args) files) := by
  have contained :
      Contained host (sweptPaths args) (planOutcome host args files) ↔ _ :=
    contained_run_iff (fun entry member => by cases member)
      (registersBeforeCommands_plan args)
  have status := runDriver_status_eq_zero_iff host args files
  obtain ⟨started, _, result⟩ := runDriver_eq host args files
  have issued : (runDriver host args files).world.issued =
      (planOutcome host args files).state.issued := by
    rw [result]
    exact finish_issued _ _ _ _
  rw [← contained]
  constructor
  · rintro ⟨zero, stops⟩
    rw [status, issued] at zero
    rw [issued] at stops
    exact ⟨fun completed removable => zero ⟨completed, removable⟩, stops⟩
  · rintro ⟨zero, stops⟩
    constructor
    · rw [status, issued]
      exact fun ⟨completed, removable⟩ => zero completed removable
    · rwa [issued]

/-- A host on which the first tool fails and every file exists. -/
def staleFilesHost : Host where
  resolve := id
  resolve_injective := fun _ _ same => same
  system := fun count _ files => (if count = 0 then 1 else 0, files)
  systemRaises := fun _ => false
  readRaises := fun _ => false
  appendRaises := fun _ => false

/-- With stale intermediate files around, a failed translation goes
unnoticed. -/
theorem not_failuresContained_staleFiles :
    ¬ FailuresContained
      (runDriver staleFilesHost ["a.adb".toList] fun _ => some []) := by
  intro contained
  have first := contained.zeroOnlyOnSuccess (by decide +kernel)
    (.llvmGcc [] "a.adb".toList, 1) (by decide +kernel)
  simp at first

end Driver

end AdacHybridMsp430
