import AdacHybridMsp430.DriverCleanup

/-!
# The output of a run

What the driver prints is the log of what it does, wherever an exception ends
the run: the version for every request, the commands that it issues, in the
order of its plan, and the products that it removes.
-/

namespace AdacHybridMsp430

namespace Driver

open AbortingRuns

def versionLine : Text := "msp430-elf-adac version=".toList ++ adacVersionString

def removalLine (path : Text) : Text :=
  "Removing intermediate product ".toList ++ path

/-- The command that a step issues, if any. -/
def Step.command? : Step → Option Command
  | .command issued => some issued
  | .register _ => none

/-- The standard output of a run is the log of its commands and removals.  The
last line may announce a removal that failed; then the product is still there and
the status is 1. -/
structure Logged (host : Host) (args : List Text) (exit : Exit)
    (failed : Option Text) : Prop where
  stdout : exit.world.stdout =
    List.replicate ((inspected false args).count versionOption) versionLine ++
      exit.world.issued.map (fun entry => entry.1.text) ++
      (exit.world.removed ++ failed.toList).map removalLine
  issued : exit.world.issued.map Prod.fst <+:
    (plan args).filterMap Step.command?
  removed : (exit.world.removed ++ failed.toList).Sublist
    (((readCommandLine args).adaFiles.map adaToBaseName).flatMap intermediates)
  failure : ∀ path ∈ failed, host.removeRaises path = true ∧
    (exit.world.files (host.resolve path)).isSome = true ∧ exit.status = 1

section Arguments

theorem stdout_readArgument (line : CommandLine) (arg : Text) :
    (readArgument line arg).stdout =
      line.stdout ++
        if line.ignoreNextOption = false ∧ arg = versionOption then [versionLine]
        else [] := by
  have announced : (announceVersion line arg).stdout =
      line.stdout ++ if arg = versionOption then [versionLine] else [] := by
    unfold announceVersion
    split
    · rfl
    · exact (List.append_nil _).symm
  unfold readArgument
  cases line.ignoreNextOption with
  | true => simp
  | false =>
      simp only [Bool.false_eq_true, if_false, true_and]
      cases argumentKind arg <;> exact announced

theorem ignoreNextOption_readArgument (line : CommandLine) (arg : Text) :
    (readArgument line arg).ignoreNextOption =
      (!line.ignoreNextOption && decide (arg = languageOption)) := by
  have kept : (announceVersion line arg).ignoreNextOption =
      line.ignoreNextOption := by
    unfold announceVersion
    split <;> rfl
  have language := argumentKind_eq_language_iff arg
  unfold readArgument
  cases ignored : line.ignoreNextOption with
  | true => simp
  | false =>
      rw [ignored] at kept
      cases kind : argumentKind arg <;> simp_all

/-- The version is printed for every argument that requests it. -/
theorem stdout_readCommandLine (args : List Text) (line : CommandLine) :
    (args.foldl readArgument line).stdout =
      line.stdout ++ List.replicate
        ((inspected line.ignoreNextOption args).count versionOption)
        versionLine := by
  induction args generalizing line with
  | nil => simp [inspected]
  | cons arg args ih =>
      rw [List.foldl_cons, ih, stdout_readArgument, ignoreNextOption_readArgument]
      cases line.ignoreNextOption with
      | true => simp [inspected]
      | false =>
          by_cases language : arg = languageOption
          · subst language
            have different : languageOption ≠ versionOption := by decide
            simp [inspected, different]
          · by_cases version : arg = versionOption
            · subst version
              simp [inspected, language, List.replicate_succ]
            · simp [inspected, language, version]

end Arguments

section Runs

variable (host : Host)

/-- A state has issued some more commands and printed them. -/
def Extends (commands : List Command) (before after : World) : Prop :=
  ∃ now, after.issued = before.issued ++ now ∧
    after.stdout = before.stdout ++ now.map (fun entry => entry.1.text) ∧
    now.map Prod.fst <+: commands

theorem extends_takeStep (step : Step) (world : World) :
    ∃ now, (takeStep host step world).state.issued = world.issued ++ now ∧
      (takeStep host step world).state.stdout =
        world.stdout ++ now.map (fun entry => entry.1.text) ∧
      now.map Prod.fst = step.command?.toList := by
  cases step with
  | command command =>
      refine ⟨[(command, (host.system world.issued.length command world.files).1)],
        executeCmd_issued host command world, ?_, rfl⟩
      unfold takeStep executeCmd
      dsimp only
      split <;> rfl
  | register asmFile =>
      refine ⟨[], ?_, ?_, rfl⟩
      · rw [takeStep, registerConstructors_issued, List.append_nil]
      · rw [takeStep]
        unfold registerConstructors appendConstructorSections
        split
        · exact (List.append_nil _).symm
        · split
          · exact (List.append_nil _).symm
          · split <;> exact (List.append_nil _).symm

/-- A run issues the commands of its steps in order, up to where it ends. -/
theorem extends_run (steps : List Step) (world : World) :
    Extends (steps.filterMap Step.command?) world
      (run (takeStep host) steps world).state := by
  induction steps generalizing world with
  | nil => exact ⟨[], by simp, by simp, List.nil_prefix⟩
  | cons step steps ih =>
      obtain ⟨now, issued, stdout, command⟩ := extends_takeStep host step world
      have commands : (step :: steps).filterMap Step.command? =
          now.map Prod.fst ++ steps.filterMap Step.command? := by
        rw [command]
        cases step <;> rfl
      rw [run_cons, commands]
      cases outcome : takeStep host step world with
      | completed next =>
          rw [outcome] at issued stdout
          obtain ⟨later, laterIssued, laterStdout, laterCommands⟩ := ih next
          refine ⟨now ++ later, ?_, ?_, ?_⟩
          · rw [Outcome.andThen_completed, laterIssued,
              show next.issued = _ from issued, List.append_assoc]
          · rw [Outcome.andThen_completed, laterStdout,
              show next.stdout = _ from stdout, List.map_append, List.append_assoc]
          · rw [List.map_append]
            exact (List.prefix_append_right_inj _).mpr laterCommands
      | raised next =>
          rw [outcome] at issued stdout
          exact ⟨now, issued, stdout, List.prefix_append _ _⟩

/-- Removals of some of the paths are recorded and printed, and so is the one
that failed, if any. -/
structure RemovalsLogged (paths : List Text) (world : World)
    (outcome : Outcome World) (failed : Option Text) : Prop where
  recorded : ∃ now, outcome.state.removed = world.removed ++ now ∧
    outcome.state.stdout =
      world.stdout ++ (now ++ failed.toList).map removalLine ∧
    (now ++ failed.toList).Sublist paths
  failure : ∀ path ∈ failed, host.removeRaises path = true ∧
    (outcome.state.files (host.resolve path)).isSome = true ∧
    outcome.hasRaised = true

theorem removalsLogged_remove (path : Text) (world : World) :
    ∃ failed, RemovalsLogged host [path] world (remove host path world)
      failed := by
  unfold remove
  split
  · rename_i found
    split
    · exact ⟨none, ⟨[], by simp, by simp, by simp⟩, by simp⟩
    · dsimp only
      split
      · rename_i raises
        exact ⟨some path, ⟨[], by simp, rfl, by simp⟩, by simp [raises, found]⟩
      · exact ⟨none, ⟨[path], rfl, rfl, by simp⟩, by simp⟩
  · exact ⟨none, ⟨[], by simp, by simp, by simp⟩, by simp⟩

theorem removalsLogged_run (paths : List Text) (world : World) :
    ∃ failed, RemovalsLogged host paths world (run (remove host) paths world)
      failed := by
  induction paths generalizing world with
  | nil => exact ⟨none, ⟨[], by simp, by simp, by simp⟩, by simp⟩
  | cons path paths ih =>
      obtain ⟨failed, ⟨now, removed, stdout, sublist⟩, failure⟩ :=
        removalsLogged_remove host path world
      rw [run_cons]
      cases outcome : remove host path world with
      | raised next =>
          rw [outcome] at removed stdout failure
          exact ⟨failed, ⟨now, removed, stdout,
            sublist.trans (List.singleton_sublist.mpr List.mem_cons_self)⟩,
            failure⟩
      | completed next =>
          rw [outcome] at removed stdout failure
          have none : failed = none := by
            cases failed with
            | none => rfl
            | some other => simp at failure
          subst none
          simp only [Option.toList_none, List.append_nil] at stdout sublist
          obtain ⟨failed, ⟨later, laterRemoved, laterStdout, laterSublist⟩,
            laterFailure⟩ := ih next
          refine ⟨failed, ⟨now ++ later, ?_, ?_, ?_⟩, laterFailure⟩
          · rw [Outcome.andThen_completed, laterRemoved,
              show next.removed = _ from removed, List.append_assoc]
          · rw [Outcome.andThen_completed, laterStdout,
              show next.stdout = _ from stdout]
            simp only [List.map_append, List.append_assoc]
          · rw [List.append_assoc]
            exact sublist.append laterSublist

end Runs

/-- The products of sources that come first are among the products of all. -/
theorem sublist_intermediates {started sources : List Text}
    (isPrefix : started <+: sources) :
    ((started.map adaToBaseName).flatMap intermediates).Sublist
      ((sources.map adaToBaseName).flatMap intermediates) := by
  obtain ⟨rest, rfl⟩ := isPrefix
  rw [List.map_append, List.flatMap_append]
  exact List.sublist_append_left _ _

/-- The cleanup for some base names logs its removals. -/
theorem removalsLogged_finish (host : Host) (options : Options)
    (baseNames : List Text) (world : World) :
    ∃ failed, RemovalsLogged host (baseNames.flatMap intermediates) world
      (finish host options baseNames world) failed := by
  rw [finish_eq]
  split
  · exact ⟨none, ⟨[], by simp, by simp, by simp⟩, by simp⟩
  · exact removalsLogged_run host _ world

/-- Every run is logged, also if an exception ends it. -/
theorem logged_runDriver (host : Host) (args : List Text) (files : Files) :
    ∃ failed, Logged host args (runDriver host args files) failed := by
  obtain ⟨started, isPrefix, ends⟩ := runDriver_eq host args files
  obtain ⟨now, issued, stdout, commands⟩ := extends_run host (plan args)
    (startWorld (readCommandLine args) files)
  have version : (startWorld (readCommandLine args) files).stdout = _ :=
    stdout_readCommandLine args {}
  have pipeline := removed_planOutcome host args files
  rw [version] at stdout
  rw [show (startWorld (readCommandLine args) files).issued = [] from rfl,
    List.nil_append] at issued
  obtain ⟨failed, ⟨removals, removed, printed, sublist⟩, failure⟩ :=
    removalsLogged_finish host (commandLineOptions args)
      (started.map adaToBaseName) (planOutcome host args files).state
  have finishIssued := finish_issued host (commandLineOptions args)
    (started.map adaToBaseName) (planOutcome host args files).state
  rw [pipeline, List.nil_append] at removed
  rw [planOutcome] at removed printed failure finishIssued
  rw [ends, planOutcome]
  refine ⟨failed, ?_, ?_, ?_, ?_⟩
  · dsimp only [exitAfter]
    rw [printed, finishIssued, removed, stdout, issued]
    rfl
  · dsimp only [exitAfter]
    rwa [finishIssued, issued]
  · dsimp only [exitAfter]
    rw [removed]
    exact sublist.trans (sublist_intermediates isPrefix)
  · intro path member
    obtain ⟨raises, left, raised⟩ := failure path member
    exact ⟨raises, left, by simp [exitAfter, raised]⟩

end Driver

end AdacHybridMsp430
