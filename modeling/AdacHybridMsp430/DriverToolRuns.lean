import AdacHybridMsp430.DriverIntermediateFiles
import AdacHybridMsp430.DriverShellDelivery

/-!
# Intermediate files behind the shell

A tool sees the argument vector that the shell makes of a command string, and it
may fail.  This file says what the compilers and `sed` leave when they succeed,
and nothing about the C compiler, failing tools and texts on which the shell
acts itself.  For arguments that reach the tools, it proves that every source
reaches the C compiler as its own translation, and every other argument stays
intact, exactly when the derived names are not shared.
-/

namespace AdacHybridMsp430

namespace Driver

open AbortingRuns Assembly BlankSeparated Function PathNames ShellWords

/-- What the compilers make of their input under a list of options, and the
lists of options with which they put it where they do by default. -/
structure Compilers where
  gnatRegular : List Text → Prop
  llcRegular : List Text → Prop
  bitcode : List Text → Text → Text
  library : List Text → Text → Text
  assembly : List Text → Text → Text

/-- The post-processed translation of a source. -/
def Compilers.translation (compilers : Compilers) (keepAdaMain : Bool)
    (gnatOptions llcOptions : List Text) (source : Text) : Text :=
  postprocessedText keepAdaMain
    (compilers.assembly llcOptions (compilers.bitcode gnatOptions source))

/-- The name of an output for a source, in the working directory. -/
def outputName (file : Text) (suffix : String) : Text :=
  (splitext (basename file)).1 ++ suffix.toList

/-- A program takes the name for a file, and not for an option, the standard
input or a file of options. -/
def IsOperand (name : Text) : Prop :=
  name.head? ≠ some '-' ∧ name.head? ≠ some '@'

/-- The programs on the host are these compilers and `sed`: what each of them
leaves if it succeeds, by its argument vector. -/
structure RunsCompilers (compilers : Compilers) (host : Host) : Prop where
  llvmGcc : ∀ {count command files options file},
    shellWords command.text =
        some (["llvm-gcc".toList, "-emit-llvm".toList] ++ options ++
          ["-c".toList, file]) →
      compilers.gnatRegular options → IsOperand file →
      (host.system count command files).1 = 0 →
      (host.system count command files).2 =
        update
          (update files (host.resolve (outputName file ".bc"))
            (some (compilers.bitcode options
              ((files (host.resolve file)).getD []))))
          (host.resolve (outputName file ".ali"))
          (some (compilers.library options
            ((files (host.resolve file)).getD [])))
  llc : ∀ {count command files options asmFile bcFile},
    shellWords command.text =
        some (["llc-9".toList, "-march=msp430".toList] ++ options ++
          ["-o".toList, asmFile, bcFile]) →
      compilers.llcRegular options → IsOperand asmFile → IsOperand bcFile →
      (host.system count command files).1 = 0 →
      (host.system count command files).2 =
        update files (host.resolve asmFile)
          (some (compilers.assembly options
            ((files (host.resolve bcFile)).getD [])))
  sed : ∀ {count command files fileName},
    shellWords command.text =
        some ["sed".toList, "-i".toList, "s/_ada_main/main/g".toList,
          fileName] →
      IsOperand fileName →
      (host.system count command files).1 = 0 →
      (host.system count command files).2 =
        update files (host.resolve fileName)
          ((files (host.resolve fileName)).map renameAdaMain)

/-- A host in a directory runs these compilers, and the options of a command line
leave their outputs where they are by default. -/
structure Serves (compilers : Compilers) (directory : Directory)
    (args : List Text) (host : Host) : Prop where
  toDirectory : host.toDirectory = directory
  runs : RunsCompilers compilers host
  gnatRegular : compilers.gnatRegular (readCommandLine args).gnatOptions
  llcRegular : compilers.llcRegular (readCommandLine args).llcOptions

/-- Whatever the compilers and the files: the C compiler is given an assembly file
for each source, which holds the translation of that source if the tools before
have succeeded, these tools leave the other arguments alone, and so does the
cleanup. -/
structure FilesIntact (directory : Directory) (args : List Text) : Prop where
  passed : ∀ file ∈ (readCommandLine args).adaFiles, ∃ words,
    shellWords (Command.mspGcc (readCommandLine args).gccCmdLine).text =
        some words ∧
      outputName file ".s" ∈ words
  translated : ∀ compilers host, Serves compilers directory args host →
    ∀ files, SourcesExist directory args files →
      ∀ world, (compiled host args files).2 = .completed world →
        AllSucceeded world.issued →
          ∀ file ∈ (readCommandLine args).adaFiles,
            world.files (directory.resolve (outputName file ".s")) =
              (files (directory.resolve file)).map
                (compilers.translation (commandLineOptions args).keepAdaMain
                  (readCommandLine args).gnatOptions
                  (readCommandLine args).llcOptions)
  kept : ∀ compilers host, Serves compilers directory args host →
    ∀ files, AllSucceeded (compiled host args files).2.state.issued →
      ∀ arg ∈ ordinaryArguments args,
        (compiled host args files).2.state.files (directory.resolve arg) =
          files (directory.resolve arg)
  spared : ∀ host : Host, host.toDirectory = directory →
    ∀ files, ∀ arg ∈ ordinaryArguments args,
      (runDriver host args files).world.files (directory.resolve arg) =
        (planOutcome host args files).state.files (directory.resolve arg)

/-- The arguments reach the tools as they are, and the sources and the derived
names as files. -/
structure ReachesTools (args : List Text) : Prop extends Deliverable args where
  operands : ∀ file ∈ (readCommandLine args).adaFiles,
    IsOperand file ∧ IsOperand (adaToBaseName file)

theorem IsOperand.append {name suffix : Text} (operand : IsOperand name)
    (suffixOperand : IsOperand suffix) : IsOperand (name ++ suffix) := by
  cases name with
  | nil => exact suffixOperand
  | cons first rest => exact operand

/-- The shell removes the quotes around the script of `sed`. -/
theorem shellWords_sed {fileName : Text} (plain : Plain fileName) :
    shellWords (Command.sed fileName).text =
      some ["sed".toList, "-i".toList, "s/_ada_main/main/g".toList,
        fileName] := by
  have one : words isBlank fileName = [fileName] :=
    words_of_blankFree isBlank plain.nonempty (blankFree_of_plain plain).2
  have scanned : scan .unquoted none fileName = some [fileName] := by
    rw [← one]
    exact scan_of_plain (by simp) (by simp) (by simpa [one] using plain)
  -- the scanner runs through the words of the driver by computation
  change Option.map (fun tail => "sed".toList :: tail)
    (Option.map (fun tail => "-i".toList :: tail)
      (Option.map (fun tail => "s/_ada_main/main/g".toList :: tail)
        (scan .unquoted none fileName))) = _
  rw [scanned]
  rfl

/-- The compilers by the text of their options. -/
def Compilers.tools (compilers : Compilers) : Tools where
  bitcode gnatText := compilers.bitcode (words isBlank gnatText)
  library gnatText := compilers.library (words isBlank gnatText)
  assembly llcText := compilers.assembly (words isBlank llcText)

section Sufficiency

variable {compilers : Compilers} {host : Host} {args : List Text}
  (serves : Serves compilers host.toDirectory args host)
  (reaches : ReachesTools args)

include serves reaches

/-- The commands of the passes act like the compilers. -/
theorem actsLike_fileCommands {pass : LoopVariables × Text}
    (member : pass ∈ commandLinePasses args) :
    ∀ command ∈ fileCommands (commandLineOptions args) pass.1 pass.2,
      ActsLike compilers.tools host command := by
  have delivered := (argumentsDelivered_iff_passes args).mpr
    reaches.toDeliverable.passes
  obtain ⟨gnatWords, llcWords⟩ := reaches.toDeliverable.words_join member
  have source : pass.2 ∈ (readCommandLine args).adaFiles :=
    (mem_adaFiles_iff args).mpr ⟨pass, member, rfl⟩
  obtain ⟨fileOperand, baseOperand⟩ := reaches.operands pass.2 source
  have asmOperand : IsOperand (adaToBaseName pass.2 ++ asmExtension) :=
    baseOperand.append ⟨by decide, by decide⟩
  have bcOperand : IsOperand (adaToBaseName pass.2 ++ bcExtension) :=
    baseOperand.append ⟨by decide, by decide⟩
  intro command commandMem count files status
  rcases List.mem_append.mp commandMem with compiles | renames
  · simp only [List.mem_cons, List.not_mem_nil, or_false] at compiles
    rcases compiles with rfl | rfl
    · have left := serves.runs.llvmGcc (delivered.llvmGcc pass member)
        serves.gnatRegular fileOperand status
      rw [left, ← gnatWords]
      rfl
    · have left := serves.runs.llc (delivered.llc pass member)
        serves.llcRegular asmOperand bcOperand status
      rw [left, ← llcWords]
      rfl
  · have renamed : command = .sed (adaToBaseName pass.2 ++ asmExtension) := by
      revert renames
      cases (commandLineOptions args).keepAdaMain <;> simp
    subst renamed
    exact serves.runs.sed
      (shellWords_sed (reaches.forwarded _ (asmFile_mem_gccArguments source)))
      asmOperand status

theorem NamesApart.translated (apart : NamesApart host.toDirectory args)
    {files : Files} (exist : SourcesExist host.toDirectory args files)
    {world : World} (completed : (compiled host args files).2 = .completed world)
    (succeeded : AllSucceeded world.issued) {file : Text}
    (member : file ∈ (readCommandLine args).adaFiles) :
    world.files (host.resolve (outputName file ".s")) =
      (files (host.resolve file)).map
        (compilers.translation (commandLineOptions args).keepAdaMain
          (readCommandLine args).gnatOptions
          (readCommandLine args).llcOptions) := by
  have passed := compileFiles_files
    (fun _ passMem => actsLike_fileCommands serves reaches passMem) completed
    succeeded
  obtain ⟨pass, passMem, left⟩ :=
    (apart.passesIntact compilers.tools).translated files exist file member
  obtain ⟨gnatWords, llcWords⟩ := reaches.toDeliverable.words_join passMem
  rw [passed, ← gnatWords, ← llcWords]
  exact left

theorem NamesApart.kept (apart : NamesApart host.toDirectory args)
    {files : Files}
    (succeeded : AllSucceeded (compiled host args files).2.state.issued)
    {arg : Text} (member : arg ∈ ordinaryArguments args) :
    (compiled host args files).2.state.files (host.resolve arg) =
      files (host.resolve arg) := by
  rw [compiled, compileFiles_outcome] at succeeded ⊢
  have acts : ∀ command, .command command ∈ compilationSteps args →
      ActsLike compilers.tools host command := by
    intro command commandMem
    obtain ⟨pass, passMem, stepMem⟩ := List.mem_flatMap.mp commandMem
    refine actsLike_fileCommands serves reaches passMem command ?_
    simpa [fileSteps] using stepMem
  refine run_files_of_notMem acts succeeded ?_
  intro step stepMem written
  obtain ⟨pass, passMem, path, pathMem, same⟩ :=
    product_of_mem_stepWrites stepMem written
  exact apart.arguments arg member pass.2
    ((mem_adaFiles_iff args).mpr ⟨pass, passMem, rfl⟩) path pathMem same

end Sufficiency

section Necessity

/-- The files that a program leaves. -/
def Compilers.perform (compilers : Compilers) (directory : Directory)
    (words : List Text) (files : Files) : Files :=
  let options := words.drop 2
  let last := words.getLastD []
  let content := (files (directory.resolve last)).getD []
  if words.head? = some "llvm-gcc".toList then
    update
      (update files (directory.resolve (outputName last ".bc"))
        (some (compilers.bitcode options.dropLast.dropLast content)))
      (directory.resolve (outputName last ".ali"))
      (some (compilers.library options.dropLast.dropLast content))
  else if words.head? = some "llc-9".toList then
    update files (directory.resolve (words.dropLast.getLastD []))
      (some (compilers.assembly options.dropLast.dropLast.dropLast content))
  else if words.head? = some "sed".toList then
    update files (directory.resolve last)
      ((files (directory.resolve last)).map renameAdaMain)
  else files

/-- A host that runs the compilers, on which nothing fails. -/
def Compilers.host (compilers : Compilers) (directory : Directory) : Host where
  toDirectory := directory
  system _ command files :=
    (0, match shellWords command.text with
      | some words => compilers.perform directory words files
      | none => files)
  systemRaises _ := false
  readRaises _ := false
  appendRaises _ := false

theorem Compilers.quiet_host (compilers : Compilers) (directory : Directory) :
    Quiet (compilers.host directory) :=
  ⟨fun _ _ _ => rfl, fun _ => rfl, fun _ => rfl, fun _ => rfl⟩

/-- The parts of an argument vector behind its options. -/
theorem operands_of_two (program flags : Text) (options : List Text)
    (flag file : Text) :
    ([program, flags] ++ options ++ [flag, file]).getLastD [] = file ∧
      (([program, flags] ++ options ++ [flag, file]).drop 2).dropLast.dropLast =
        options := by
  refine ⟨?_, by simp⟩
  rw [List.getLastD_eq_getLast?, List.getLast?_append]
  rfl

theorem operands_of_three (program flags : Text) (options : List Text)
    (flag asmFile bcFile : Text) :
    ([program, flags] ++ options ++ [flag, asmFile, bcFile]).getLastD [] =
        bcFile ∧
      ([program, flags] ++ options ++
        [flag, asmFile, bcFile]).dropLast.getLastD [] = asmFile ∧
      (([program, flags] ++ options ++
        [flag, asmFile, bcFile]).drop 2).dropLast.dropLast.dropLast =
        options := by
  refine ⟨?_, ?_, by simp⟩
  · rw [List.getLastD_eq_getLast?, List.getLast?_append]
    rfl
  · rw [List.dropLast_append_of_ne_nil (by simp), List.getLastD_eq_getLast?,
      List.getLast?_append]
    rfl

theorem Compilers.system_host {compilers : Compilers} {directory : Directory}
    {command : Command} {words : List Text}
    (received : shellWords command.text = some words) (count : Nat)
    (files : Files) :
    ((compilers.host directory).system count command files).2 =
      compilers.perform directory words files := by
  rw [Compilers.host]
  dsimp only
  rw [received]

theorem Compilers.runsCompilers_host (compilers : Compilers)
    (directory : Directory) :
    RunsCompilers compilers (compilers.host directory) where
  llvmGcc received _ _ _ := by
    rw [Compilers.system_host received, Compilers.perform]
    obtain ⟨last, options⟩ := operands_of_two _ _ _ _ _
    rw [last, options]
    exact if_pos rfl
  llc received _ _ _ _ := by
    rw [Compilers.system_host received, Compilers.perform]
    obtain ⟨last, asmFile, options⟩ := operands_of_three _ _ _ _ _ _
    rw [last, asmFile, options]
    exact (if_neg (by simp only [List.cons_append, List.head?_cons]; decide)).trans
      (if_pos rfl)
  sed received _ _ := by
    rw [Compilers.system_host received, Compilers.perform]
    exact (if_neg (by simp only [List.head?_cons]; decide)).trans
      ((if_neg (by simp only [List.head?_cons]; decide)).trans (if_pos rfl))

/-- The marking tools, which know no options. -/
def markingCompilers : Compilers where
  gnatRegular _ := True
  llcRegular _ := True
  bitcode _ := markingTools.bitcode []
  library _ := markingTools.library []
  assembly _ := markingTools.assembly []

theorem serves_markingCompilers (directory : Directory) (args : List Text) :
    Serves markingCompilers directory args (markingCompilers.host directory) :=
  ⟨rfl, markingCompilers.runsCompilers_host directory, trivial, trivial⟩

variable {directory : Directory} {args : List Text}

/-- Runs of the marking compilers leave what the passes leave. -/
theorem compiled_markingCompilers (directory : Directory)
    (reaches : ReachesTools args) (files : Files) :
    ∃ world,
      (compiled (markingCompilers.host directory) args files).2 =
        .completed world ∧
      AllSucceeded world.issued ∧
      world.files = (commandLinePasses args).foldl
        (passFiles markingTools directory (commandLineOptions args)) files := by
  have quiet := markingCompilers.quiet_host directory
  have serves : Serves markingCompilers
      (markingCompilers.host directory).toDirectory args
      (markingCompilers.host directory) :=
    serves_markingCompilers directory args
  have acts := fun pass (member : pass ∈ commandLinePasses args) =>
    actsLike_fileCommands serves reaches member
  obtain ⟨world, completed⟩ := quiet.compileFiles acts
    (startWorld (readCommandLine args) files)
  have succeeded := quiet.allSucceeded_run (compilationSteps args)
    (startWorld (readCommandLine args) files)
    (fun entry member => by cases member)
  have same := compileFiles_outcome (markingCompilers.host directory)
    (commandLineOptions args) (loopStart (readCommandLine args))
    (readCommandLine args).adaFiles (startWorld (readCommandLine args) files)
  rw [completed] at same
  rw [compilationSteps, commandLinePasses, ← same] at succeeded
  exact ⟨world, completed, succeeded, compileFiles_files acts completed succeeded⟩

theorem FilesIntact.passesIntact (intact : FilesIntact directory args)
    (reaches : ReachesTools args) :
    PassesIntact markingTools directory args where
  translated files exist file member := by
    obtain ⟨world, completed, succeeded, left⟩ :=
      compiled_markingCompilers directory reaches files
    obtain ⟨pass, passMem, _⟩ := (mem_adaFiles_iff args).mp member
    refine ⟨pass, passMem, ?_⟩
    rw [← left]
    exact intact.translated markingCompilers _
      (serves_markingCompilers directory args) files exist world completed
      succeeded file member
  kept files arg member := by
    obtain ⟨world, completed, succeeded, left⟩ :=
      compiled_markingCompilers directory reaches files
    have kept := intact.kept markingCompilers _
      (serves_markingCompilers directory args) files
    rw [completed] at kept
    rw [← left]
    exact kept succeeded arg member

end Necessity

/-- For arguments that reach the tools, every source reaches the C compiler as its
own translation and every other argument stays intact exactly when the derived
names are not shared. -/
theorem filesIntact_iff (directory : Directory) {args : List Text}
    (reaches : ReachesTools args) :
    FilesIntact directory args ↔ NamesApart directory args := by
  constructor
  · exact fun intact => (intact.passesIntact reaches).namesApart
  · intro apart
    have delivered := (argumentsDelivered_iff_passes args).mpr
      reaches.toDeliverable.passes
    refine ⟨?_, ?_, ?_, ?_⟩
    · exact fun file member => ⟨_, delivered.mspGcc,
        List.mem_cons_of_mem _ (asmFile_mem_gccArguments member)⟩
    · rintro compilers host serves files exist world completed succeeded
        file member
      obtain rfl := serves.toDirectory
      exact apart.translated serves reaches exist completed succeeded member
    · rintro compilers host serves files succeeded arg member
      obtain rfl := serves.toDirectory
      exact apart.kept serves reaches succeeded member
    · rintro host rfl files arg member
      exact runDriver_files_of_ne host files (apart.arguments arg member)

/-- A source in another directory next to an object file. -/
theorem filesIntact_util :
    FilesIntact plainDirectory ["src/util.adb".toList, "main.o".toList] := by
  have reaches : ReachesTools ["src/util.adb".toList, "main.o".toList] :=
    { forwarded := plain_of_all_isBracketFree (by decide +kernel)
      sources := plain_of_all_isBracketFree (by decide +kernel)
      options := fun _ => plain_of_all_isBracketFree (by decide +kernel)
      single := Or.inl (by decide +kernel)
      operands := by unfold IsOperand; decide +kernel }
  refine (filesIntact_iff plainDirectory reaches).mpr ⟨?_, ?_, ?_⟩
  · decide +kernel
  · decide +kernel
  · decide +kernel

/-- An assembly file given next to the Ada source of its name is lost. -/
theorem not_filesIntact_assemblyArgument :
    ¬ FilesIntact plainDirectory ["util.adb".toList, "util.s".toList] := by
  intro intact
  have kept := intact.kept markingCompilers _
    (serves_markingCompilers plainDirectory _) (fun _ => some ['u'])
    (by unfold AllSucceeded; decide +kernel) "util.s".toList (by decide)
  revert kept
  decide +kernel

end Driver

end AdacHybridMsp430
