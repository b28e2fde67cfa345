import AdacHybridMsp430.DriverArguments
import AdacHybridMsp430.DriverFailureContainment
import Mathlib.Data.Set.Insert

/-!
# The names of intermediate files

The intermediate products of a source are named after the last component of
its path without the extension.  This file follows the files through the passes
of the compilation loop while all tools succeed, and proves that the passes
leave every translation and every other argument intact exactly when the derived
names are not shared.
-/

namespace AdacHybridMsp430

namespace Driver

open AbortingRuns Assembly Function

/-- What the tools make of their input.  The bitcode and the library information
are made from the options and the contents of the source, the assembly text from
the options and the bitcode. -/
structure Tools where
  bitcode : Text → Text → Text
  library : Text → Text → Text
  assembly : Text → Text → Text

section ToolFiles

variable (tools : Tools) (directory : Directory)

/-- The files after a command. -/
def Tools.respond (command : Command) (files : Files) : Files :=
  match command with
  | .llvmGcc gnatOptions file =>
      let source := (files (directory.resolve file)).getD []
      let baseName := adaToBaseName file
      update
        (update files (directory.resolve (baseName ++ bcExtension))
          (some (tools.bitcode gnatOptions source)))
        (directory.resolve (baseName ++ aliExtension))
        (some (tools.library gnatOptions source))
  | .llc llcOptions asmFile bcFile =>
      update files (directory.resolve asmFile)
        (some (tools.assembly llcOptions
          ((files (directory.resolve bcFile)).getD [])))
  | .sed fileName =>
      update files (directory.resolve fileName)
        ((files (directory.resolve fileName)).map renameAdaMain)
  | .mspGcc _ => files

/-- The host on which these tools always succeed and nothing raises an
exception. -/
def Tools.host : Host where
  toDirectory := directory
  system _ command files := (0, tools.respond directory command files)
  systemRaises _ := false
  readRaises _ := false
  appendRaises _ := false

/-- The post-processed translation of a source. -/
def Tools.translation (keepAdaMain : Bool)
    (gnatOptions llcOptions source : Text) : Text :=
  postprocessedText keepAdaMain
    (tools.assembly llcOptions (tools.bitcode gnatOptions source))

end ToolFiles

/-- A command that succeeds on the host leaves the files that these tools
leave. -/
def ActsLike (tools : Tools) (host : Host) (command : Command) : Prop :=
  ∀ count files, (host.system count command files).1 = 0 →
    (host.system count command files).2 =
      tools.respond host.toDirectory command files

/-- All commands succeed on the host, and nothing raises an exception before the
cleanup. -/
structure Quiet (host : Host) : Prop where
  succeeds : ∀ count command files, (host.system count command files).1 = 0
  systemRaises : ∀ count, host.systemRaises count = false
  readRaises : ∀ count, host.readRaises count = false
  appendRaises : ∀ count, host.appendRaises count = false

/-- The sources of a command line exist. -/
def SourcesExist (directory : Directory) (args : List Text) (files : Files) :
    Prop :=
  ∀ file ∈ (readCommandLine args).adaFiles,
    (files (directory.resolve file)).isSome = true

/-- The derived names are not shared: sources of one base name are the same
file, no source is an intermediate product of one before it, and no other
argument is an intermediate product. -/
structure NamesApart (directory : Directory) (args : List Text) : Prop where
  sources : ∀ first ∈ (readCommandLine args).adaFiles,
    ∀ second ∈ (readCommandLine args).adaFiles,
      adaToBaseName first = adaToBaseName second →
        directory.resolve first = directory.resolve second
  products : (readCommandLine args).adaFiles.Pairwise fun first second =>
    ∀ path ∈ intermediates (adaToBaseName first),
      directory.resolve second ≠ directory.resolve path
  arguments : ∀ arg ∈ ordinaryArguments args,
    ∀ file ∈ (readCommandLine args).adaFiles,
      ∀ path ∈ intermediates (adaToBaseName file),
        directory.resolve arg ≠ directory.resolve path

section Names

variable (directory : Directory)

/-- Names made from base names denote different files if their extensions end
differently. -/
theorem resolve_ne_of_getLast? {first second suffix suffix' : Text}
    (flat : '/' ∉ suffix) (flat' : '/' ∉ suffix')
    (nonempty : suffix ≠ []) (nonempty' : suffix' ≠ [])
    (different : suffix.getLast? ≠ suffix'.getLast?) :
    directory.resolve (adaToBaseName first ++ suffix) ≠
      directory.resolve (adaToBaseName second ++ suffix') := by
  intro same
  have names := directory.resolve_injective
    (by simpa [slash_not_mem_adaToBaseName] using flat)
    (by simpa [slash_not_mem_adaToBaseName] using flat') same
  apply different
  have lasts := congrArg List.getLast? names
  rwa [List.getLast?_append_of_ne_nil _ nonempty,
    List.getLast?_append_of_ne_nil _ nonempty'] at lasts

theorem resolve_asm_ne_bc (first second : Text) :
    directory.resolve (adaToBaseName first ++ asmExtension) ≠
      directory.resolve (adaToBaseName second ++ bcExtension) :=
  resolve_ne_of_getLast? directory (by decide) (by decide) (by decide)
    (by decide) (by decide)

theorem resolve_asm_ne_ali (first second : Text) :
    directory.resolve (adaToBaseName first ++ asmExtension) ≠
      directory.resolve (adaToBaseName second ++ aliExtension) :=
  resolve_ne_of_getLast? directory (by decide) (by decide) (by decide)
    (by decide) (by decide)

theorem resolve_bc_ne_ali (first second : Text) :
    directory.resolve (adaToBaseName first ++ bcExtension) ≠
      directory.resolve (adaToBaseName second ++ aliExtension) :=
  resolve_ne_of_getLast? directory (by decide) (by decide) (by decide)
    (by decide) (by decide)

theorem adaToBaseName_eq_of_resolve_asm_eq {first second : Text}
    (same : directory.resolve (adaToBaseName first ++ asmExtension) =
      directory.resolve (adaToBaseName second ++ asmExtension)) :
    adaToBaseName first = adaToBaseName second := by
  have flat : '/' ∉ asmExtension := by decide
  have names := directory.resolve_injective
    (by simpa [slash_not_mem_adaToBaseName] using flat)
    (by simpa [slash_not_mem_adaToBaseName] using flat) same
  exact List.append_cancel_right names

end Names

section Passes

variable (tools : Tools) (directory : Directory) (options : Options)

/-- The files after a pass of the compilation loop. -/
def passFiles (files : Files) (pass : LoopVariables × Text) : Files :=
  let source := (files (directory.resolve pass.2)).getD []
  let gnatOptions := pass.1.gnatOptions.join
  let baseName := adaToBaseName pass.2
  update
    (update
      (update files (directory.resolve (baseName ++ bcExtension))
        (some (tools.bitcode gnatOptions source)))
      (directory.resolve (baseName ++ aliExtension))
      (some (tools.library gnatOptions source)))
    (directory.resolve (baseName ++ asmExtension))
    (some (tools.translation options.keepAdaMain gnatOptions
      pass.1.llcOptions.join source))

end Passes

section Hosts

variable {tools : Tools} {host : Host} {options : Options}

/-- A registration that completes has appended the sections of the constructors
to the file. -/
theorem registerConstructors_files {asmFile : Text} {world next : World}
    (completed : registerConstructors host asmFile world = .completed next) :
    ∃ text, world.files (host.resolve asmFile) = some text ∧
      next.files = update world.files (host.resolve asmFile)
        (some (text ++ constructorSections (contructorNames text))) := by
  unfold registerConstructors findContructorNames at completed
  cases reads : host.readRaises world.issued.length with
  | true => simp [reads] at completed
  | false =>
      cases found : world.files (host.resolve asmFile) with
      | none => simp [reads, found] at completed
      | some text =>
          refine ⟨text, rfl, ?_⟩
          simp only [reads, Bool.false_eq_true, if_false, found,
            Option.map_some] at completed
          unfold appendConstructorSections at completed
          split at completed
          · rename_i empty
            cases completed
            rw [List.length_eq_zero_iff.mp empty]
            simp [constructorSections, ← found]
          · split at completed
            · cases completed
            · cases completed
              simp [found]

theorem executeCmd_files {command : Command} (acts : ActsLike tools host command)
    {world next : World}
    (completed : executeCmd host command world = .completed next)
    (succeeded : AllSucceeded next.issued) :
    next.files = tools.respond host.toDirectory command world.files := by
  have issued := executeCmd_issued host command world
  rw [completed, Outcome.state_completed] at issued
  have status := succeeded
    (command, (host.system world.issued.length command world.files).1)
    (by simp [issued])
  rw [← acts _ _ status]
  unfold executeCmd at completed
  dsimp only at completed
  split at completed
  · cases completed
  · cases completed
    rfl

/-- Post-processing that completes rewrites the assembly file. -/
theorem postprocessAsm_files {asmFile : Text}
    (acts : options.keepAdaMain = false → ActsLike tools host (.sed asmFile))
    {world next : World}
    (completed : postprocessAsm host options asmFile world = .completed next)
    (succeeded : AllSucceeded next.issued) :
    ∃ text, world.files (host.resolve asmFile) = some text ∧
      next.files = update world.files (host.resolve asmFile)
        (some (postprocessedText options.keepAdaMain text)) := by
  unfold postprocessAsm at completed
  cases keep : options.keepAdaMain with
  | true =>
      rw [keep, if_pos rfl] at completed
      simpa [postprocessedText, renamedText] using
        registerConstructors_files completed
  | false =>
      rw [keep, if_neg Bool.false_ne_true, Outcome.andThen_eq_completed_iff]
        at completed
      obtain ⟨renamed, executed, registered⟩ := completed
      have sameIssued := registerConstructors_issued host asmFile renamed
      rw [registered, Outcome.state_completed] at sameIssued
      have renamedFiles := executeCmd_files (acts keep) executed
        (sameIssued ▸ succeeded)
      obtain ⟨text, found, nextFiles⟩ := registerConstructors_files registered
      rw [renamedFiles, Tools.respond, update_self,
        Option.map_eq_some_iff] at found
      obtain ⟨original, originalFound, rfl⟩ := found
      refine ⟨original, originalFound, ?_⟩
      rw [nextFiles, renamedFiles]
      simp [Tools.respond, postprocessedText, renamedText]

theorem issued_prefix_postprocessAsm (asmFile : Text) (world : World) :
    world.issued <+: (postprocessAsm host options asmFile world).state.issued := by
  rw [postprocessAsm_eq]
  exact issued_prefix_run host _ world

/-- What a pass of the compilation loop that completes does to the files. -/
theorem compileFile_files {carried : LoopVariables} {file : Text}
    (acts : ∀ command ∈ fileCommands options carried file,
      ActsLike tools host command)
    {world next : World}
    (completed : (compileFile host options carried file world).2 =
      .completed next)
    (succeeded : AllSucceeded next.issued) :
    next.files =
      passFiles tools host.toDirectory options world.files (carried, file) := by
  simp only [compileFile, Outcome.andThen_eq_completed_iff] at completed
  obtain ⟨generated, ⟨compiled, translated, assembled⟩, postprocessed⟩ :=
    completed
  have later : generated.issued <+: (postprocessAsm host options
      (adaToBaseName file ++ asmExtension) generated).state.issued :=
    issued_prefix_postprocessAsm _ generated
  rw [postprocessed, Outcome.state_completed] at later
  have generatedSucceeded := succeeded.of_prefix later
  have called := issued_prefix_takeStep host
    (.command (.llc carried.llcOptions.join (adaToBaseName file ++ asmExtension)
      (adaToBaseName file ++ bcExtension))) compiled
  rw [takeStep, assembled, Outcome.state_completed] at called
  have compiledFiles := executeCmd_files
    (acts _ (by simp [fileCommands, commandsFor])) translated
    (generatedSucceeded.of_prefix called)
  have generatedFiles := executeCmd_files
    (acts _ (by simp [fileCommands, commandsFor])) assembled generatedSucceeded
  obtain ⟨text, found, nextFiles⟩ := postprocessAsm_files
    (fun keep => acts _ (by simp [fileCommands, commandsFor, keep]))
    postprocessed succeeded
  have bitcodeKept := resolve_bc_ne_ali host.toDirectory file file
  rw [generatedFiles, compiledFiles] at found nextFiles
  rw [nextFiles]
  simp only [Tools.respond, update_self, Option.some.injEq] at found
  rw [← found]
  simp [Tools.respond, passFiles, Tools.translation, bitcodeKept]

/-- What the compilation loop does to the files if it comes to its end with
successful tools. -/
theorem compileFiles_files {carried : LoopVariables} {sources : List Text}
    (acts : ∀ pass ∈ passes carried sources,
      ∀ command ∈ fileCommands options pass.1 pass.2,
        ActsLike tools host command)
    {world next : World}
    (completed : (compileFiles host options carried sources world).2 =
      .completed next)
    (succeeded : AllSucceeded next.issued) :
    next.files = (passes carried sources).foldl
      (passFiles tools host.toDirectory options) world.files := by
  induction sources generalizing carried world with
  | nil =>
      cases completed
      rfl
  | cons file sources ih =>
      have pass := compileFile_eq host options carried file world
      rw [compileFiles, pass] at completed
      cases steps : run (takeStep host) (fileSteps options carried file) world with
      | raised middle =>
          simp only [steps] at completed
          cases completed
      | completed middle =>
          simp only [steps] at completed pass
          have later := issued_prefix_run host
            ((passes (carried.next file) sources).flatMap fun pass =>
              fileSteps options pass.1 pass.2) middle
          rw [← compileFiles_outcome, completed, Outcome.state_completed] at later
          have middleFiles := compileFile_files
            (acts (carried, file) (by simp [passes])) (congrArg Prod.snd pass)
            (succeeded.of_prefix later)
          rw [passes, List.foldl_cons, ← middleFiles]
          exact ih (fun other member => acts other (by simp [passes, member]))
            completed

section Frame

/-- The files that a step writes. -/
def stepWrites (directory : Directory) : Step → Set Text
  | .command (.llvmGcc _ file) =>
      {directory.resolve (adaToBaseName file ++ bcExtension),
        directory.resolve (adaToBaseName file ++ aliExtension)}
  | .command (.llc _ asmFile _) => {directory.resolve asmFile}
  | .command (.sed fileName) => {directory.resolve fileName}
  | .command (.mspGcc _) => ∅
  | .register asmFile => {directory.resolve asmFile}

/-- The steps of the compilation loop write products of its sources. -/
theorem product_of_mem_stepWrites {directory : Directory} {args : List Text}
    {step : Step} {file : Text} (member : step ∈ compilationSteps args)
    (written : file ∈ stepWrites directory step) :
    ∃ pass ∈ commandLinePasses args,
      ∃ path ∈ intermediates (adaToBaseName pass.2),
        file = directory.resolve path := by
  obtain ⟨pass, passMem, stepMem⟩ := List.mem_flatMap.mp member
  refine ⟨pass, passMem, ?_⟩
  have steps : step ∈ [Step.command (.llvmGcc pass.1.gnatOptions.join pass.2),
      .command (.llc pass.1.llcOptions.join
        (adaToBaseName pass.2 ++ asmExtension)
        (adaToBaseName pass.2 ++ bcExtension)),
      .command (.sed (adaToBaseName pass.2 ++ asmExtension)),
      .register (adaToBaseName pass.2 ++ asmExtension)] := by
    cases keep : (commandLineOptions args).keepAdaMain with
    | false =>
        simpa [fileSteps, fileCommands, commandsFor, keep] using stepMem
    | true =>
        simp only [fileSteps, fileCommands, commandsFor, keep, if_true,
          List.append_nil, List.map_cons, List.map_nil, List.cons_append,
          List.nil_append, List.mem_cons, List.not_mem_nil, or_false] at stepMem
        rcases stepMem with rfl | rfl | rfl <;> simp
  simp only [List.mem_cons, List.not_mem_nil, or_false] at steps
  rcases steps with rfl | rfl | rfl | rfl
  · rcases written with rfl | rfl <;> simp [intermediates]
  · exact ⟨_, by simp [intermediates], written⟩
  · exact ⟨_, by simp [intermediates], written⟩
  · exact ⟨_, by simp [intermediates], written⟩

theorem respond_of_notMem {directory : Directory} {command : Command}
    {file : Text} (notWritten : file ∉ stepWrites directory (.command command))
    (files : Files) :
    tools.respond directory command files file = files file := by
  cases command with
  | llvmGcc gnatOptions source =>
      simp only [stepWrites, Set.mem_insert_iff, Set.mem_singleton_iff,
        not_or] at notWritten
      simp only [Tools.respond, update_of_ne notWritten.1,
        update_of_ne notWritten.2]
  | llc llcOptions asmFile bcFile => exact update_of_ne notWritten _ _
  | sed fileName => exact update_of_ne notWritten _ _
  | mspGcc gccCmdLine => rfl

theorem registerConstructors_of_ne {asmFile file : Text}
    (different : file ≠ host.resolve asmFile) (world : World) :
    (registerConstructors host asmFile world).state.files file =
      world.files file := by
  unfold registerConstructors appendConstructorSections
  split
  · rfl
  · split
    · rfl
    · split
      · rfl
      · exact update_of_ne different _ _

theorem executeCmd_state_files (command : Command) (world : World) :
    (executeCmd host command world).state.files =
      (host.system world.issued.length command world.files).2 := by
  unfold executeCmd
  dsimp only
  split <;> rfl

/-- A step that does not fail leaves the files that it does not write. -/
theorem takeStep_files_of_notMem {step : Step} {file : Text} {world : World}
    (acts : ∀ command, step = .command command → ActsLike tools host command)
    (succeeded : AllSucceeded (takeStep host step world).state.issued)
    (notWritten : file ∉ stepWrites host.toDirectory step) :
    (takeStep host step world).state.files file = world.files file := by
  cases step with
  | register asmFile => exact registerConstructors_of_ne notWritten world
  | command command =>
      rw [takeStep, executeCmd_issued] at succeeded
      have status := succeeded
        (command, (host.system world.issued.length command world.files).1)
        (by simp)
      rw [takeStep, executeCmd_state_files, acts command rfl _ _ status]
      exact respond_of_notMem notWritten world.files

/-- Steps that do not fail leave the files that none of them writes. -/
theorem run_files_of_notMem {steps : List Step} {file : Text} {world : World}
    (acts : ∀ command, .command command ∈ steps → ActsLike tools host command)
    (succeeded : AllSucceeded (run (takeStep host) steps world).state.issued)
    (notWritten : ∀ step ∈ steps, file ∉ stepWrites host.toDirectory step) :
    (run (takeStep host) steps world).state.files file = world.files file := by
  induction steps generalizing world with
  | nil => rfl
  | cons step steps ih =>
      have first : (takeStep host step world).state.files file =
          world.files file :=
        takeStep_files_of_notMem (fun command eq => acts command (by simp [eq]))
          (succeeded.of_prefix (issued_prefix_run_cons host step steps world))
          (notWritten step (by simp))
      rw [run_cons] at succeeded ⊢
      cases outcome : takeStep host step world with
      | raised next =>
          rw [outcome] at first
          exact first
      | completed next =>
          rw [outcome] at first succeeded
          exact (ih (fun command member => acts command (by simp [member]))
            succeeded fun other member => notWritten other (by simp [member])).trans
            first

end Frame

section Quiet

variable (quiet : Quiet host)

include quiet

theorem Quiet.executeCmd (command : Command) (world : World) :
    ∃ next, executeCmd host command world = .completed next ∧
      next.files = (host.system world.issued.length command world.files).2 := by
  simp [Driver.executeCmd, quiet.systemRaises]

/-- On a quiet host the constructors of an existing file can be registered. -/
theorem Quiet.registerConstructors {asmFile : Text} {world : World}
    (found : (world.files (host.resolve asmFile)).isSome = true) :
    ∃ next, registerConstructors host asmFile world = .completed next := by
  have registrable : ¬ Unregistrable host asmFile world := by
    simp [Unregistrable, quiet.readRaises, quiet.appendRaises,
      Option.isSome_iff_ne_none.mp found]
  rw [← registerConstructors_hasRaised_iff] at registrable
  cases outcome : Driver.registerConstructors host asmFile world with
  | completed next => exact ⟨next, rfl⟩
  | raised next => simp [outcome] at registrable

/-- On a quiet host a pass of the compilation loop completes. -/
theorem Quiet.compileFile {carried : LoopVariables} {file : Text}
    (acts : ∀ command ∈ fileCommands options carried file,
      ActsLike tools host command) (world : World) :
    ∃ next, compileFile host options carried file world =
      (carried.next file, .completed next) := by
  obtain ⟨compiled, translated, _⟩ :=
    quiet.executeCmd (.llvmGcc carried.gnatOptions.join file) world
  obtain ⟨generated, assembled, generatedFiles⟩ := quiet.executeCmd
    (.llc carried.llcOptions.join (adaToBaseName file ++ asmExtension)
      (adaToBaseName file ++ bcExtension)) compiled
  rw [acts _ (by simp [fileCommands, commandsFor]) _ _
    (quiet.succeeds _ _ _)] at generatedFiles
  have found : (generated.files
      (host.resolve (adaToBaseName file ++ asmExtension))).isSome = true := by
    simp [generatedFiles, Tools.respond]
  have postprocessed : ∃ next, postprocessAsm host options
      (adaToBaseName file ++ asmExtension) generated = .completed next := by
    unfold postprocessAsm
    cases keep : options.keepAdaMain with
    | true => exact quiet.registerConstructors found
    | false =>
        obtain ⟨renamed, executed, renamedFiles⟩ := quiet.executeCmd
          (.sed (adaToBaseName file ++ asmExtension)) generated
        rw [acts _ (by simp [fileCommands, commandsFor, keep]) _ _
          (quiet.succeeds _ _ _)] at renamedFiles
        rw [if_neg Bool.false_ne_true, executed, Outcome.andThen_completed]
        apply quiet.registerConstructors
        simpa [renamedFiles, Tools.respond] using found
  obtain ⟨next, ends⟩ := postprocessed
  exact ⟨next, by
    simp [Driver.compileFile, translated, assembled, ends, LoopVariables.next]⟩

/-- On a quiet host the compilation loop comes to its end. -/
theorem Quiet.compileFiles {carried : LoopVariables} {sources : List Text}
    (acts : ∀ pass ∈ passes carried sources,
      ∀ command ∈ fileCommands options pass.1 pass.2,
        ActsLike tools host command) (world : World) :
    ∃ next, (compileFiles host options carried sources world).2 =
      .completed next := by
  induction sources generalizing carried world with
  | nil => exact ⟨world, rfl⟩
  | cons file sources ih =>
      obtain ⟨middle, pass⟩ :=
        quiet.compileFile (acts (carried, file) (by simp [passes])) world
      rw [Driver.compileFiles, pass]
      exact ih (fun other member => acts other (by simp [passes, member])) middle

/-- A run on a quiet host has no failures. -/
theorem Quiet.allSucceeded_run (steps : List Step) (world : World)
    (succeeded : AllSucceeded world.issued) :
    AllSucceeded (run (takeStep host) steps world).state.issued := by
  refine run_relation (takeStep host)
    (fun first second => AllSucceeded first.issued → AllSucceeded second.issued)
    (fun _ => id) (fun one two => two ∘ one) ?_ steps world succeeded
  intro step world succeeded
  apply allSucceeded_takeStep succeeded
  cases step with
  | command command => simp [Fails, quiet.succeeds]
  | register asmFile => exact id

end Quiet

theorem quiet_host (tools : Tools) (directory : Directory) :
    Quiet (tools.host directory) :=
  ⟨fun _ _ _ => rfl, fun _ => rfl, fun _ => rfl, fun _ => rfl⟩

end Hosts

section PassFiles

variable {tools : Tools} {directory : Directory} {options : Options}

theorem passFiles_asm (files : Files) (pass : LoopVariables × Text) :
    passFiles tools directory options files pass
        (directory.resolve (adaToBaseName pass.2 ++ asmExtension)) =
      some (tools.translation options.keepAdaMain pass.1.gnatOptions.join
        pass.1.llcOptions.join ((files (directory.resolve pass.2)).getD [])) :=
  update_self ..

/-- A pass leaves all files but the products of its source alone. -/
theorem passFiles_of_ne {files : Files} {pass : LoopVariables × Text}
    {file : Text}
    (different : ∀ path ∈ intermediates (adaToBaseName pass.2),
      file ≠ directory.resolve path) :
    passFiles tools directory options files pass file = files file := by
  have asm := different (adaToBaseName pass.2 ++ asmExtension)
    (by simp [intermediates])
  have bc := different (adaToBaseName pass.2 ++ bcExtension)
    (by simp [intermediates])
  have ali := different (adaToBaseName pass.2 ++ aliExtension)
    (by simp [intermediates])
  simp [passFiles, asm, bc, ali]

theorem foldl_passFiles_of_ne {files : Files}
    {done : List (LoopVariables × Text)} {file : Text}
    (different : ∀ pass ∈ done, ∀ path ∈ intermediates (adaToBaseName pass.2),
      file ≠ directory.resolve path) :
    done.foldl (passFiles tools directory options) files file = files file := by
  induction done generalizing files with
  | nil => rfl
  | cons pass done ih =>
      rw [List.foldl_cons, ih fun other member => different other (by simp [member])]
      exact passFiles_of_ne (different pass (by simp))

/-- The assembly file of a source is no product of a source with another base
name. -/
theorem asmFile_ne_intermediate {first second : Text}
    (different : adaToBaseName first ≠ adaToBaseName second) :
    ∀ path ∈ intermediates (adaToBaseName second),
      directory.resolve (adaToBaseName first ++ asmExtension) ≠
        directory.resolve path := by
  intro path member
  simp only [intermediates, List.mem_cons, List.not_mem_nil, or_false] at member
  rcases member with rfl | rfl | rfl
  · exact fun same =>
      different (adaToBaseName_eq_of_resolve_asm_eq directory same)
  · exact resolve_asm_ne_bc directory first second
  · exact resolve_asm_ne_ali directory first second

/-- With names apart, the passes so far have left the translations of their
sources. -/
theorem foldl_passFiles_translated {files : Files}
    {done : List (LoopVariables × Text)}
    (sources : ∀ first ∈ done, ∀ second ∈ done,
      adaToBaseName first.2 = adaToBaseName second.2 →
        directory.resolve first.2 = directory.resolve second.2)
    (products : done.Pairwise fun first second =>
      ∀ path ∈ intermediates (adaToBaseName first.2),
        directory.resolve second.2 ≠ directory.resolve path)
    (exist : ∀ pass ∈ done, (files (directory.resolve pass.2)).isSome = true) :
    ∀ pass ∈ done, ∃ other ∈ done,
      done.foldl (passFiles tools directory options) files
          (directory.resolve (adaToBaseName pass.2 ++ asmExtension)) =
        (files (directory.resolve pass.2)).map
          (tools.translation options.keepAdaMain other.1.gnatOptions.join
            other.1.llcOptions.join) := by
  induction done using List.reverseRecOn with
  | nil => simp
  | append_singleton done last ih =>
      intro pass member
      rw [List.foldl_append, List.foldl_cons, List.foldl_nil]
      have apart := List.pairwise_append.mp products
      by_cases sameName : adaToBaseName pass.2 = adaToBaseName last.2
      · have sameSource := sources pass member last (by simp) sameName
        have unread : done.foldl (passFiles tools directory options) files
            (directory.resolve last.2) = files (directory.resolve last.2) :=
          foldl_passFiles_of_ne fun other otherMem =>
            apart.2.2 other otherMem last (by simp)
        obtain ⟨source, found⟩ :=
          Option.isSome_iff_exists.mp (exist last (by simp))
        refine ⟨last, by simp, ?_⟩
        rw [sameName, passFiles_asm, unread, sameSource, found]
        rfl
      · have earlier : pass ∈ done := by
          rcases List.mem_append.mp member with old | new
          · exact old
          · exact absurd (by rw [List.mem_singleton.mp new]) sameName
        rw [passFiles_of_ne (asmFile_ne_intermediate sameName)]
        obtain ⟨other, otherMem, translated⟩ := ih
          (fun first firstMem second secondMem => sources first (by simp [firstMem])
            second (by simp [secondMem]))
          apart.1 (fun other otherMem => exist other (by simp [otherMem]))
          pass earlier
        exact ⟨other, by simp [otherMem], translated⟩

end PassFiles

section Cleanup

variable (host : Host)

theorem remove_files (path : Text) (world : World) (file : Text) :
    (remove host path world).state.files file = world.files file ∨
      ((remove host path world).state.files file = none ∧
        file = host.resolve path) := by
  rcases remove_cases host path world with
    ⟨_, next, raises, files, _⟩ | ⟨_, next, completes, files, _⟩
  · rw [raises]
    exact Or.inl (congrFun files file)
  · rw [completes, Outcome.state_completed, files]
    by_cases same : file = host.resolve path
    · exact Or.inr ⟨by simp [same], same⟩
    · exact Or.inl (by simp [same])

/-- Removing paths leaves a file alone unless it is one of them. -/
theorem run_remove_files (paths : List Text) (world : World) (file : Text) :
    (run (remove host) paths world).state.files file = world.files file ∨
      ((run (remove host) paths world).state.files file = none ∧
        ∃ path ∈ paths, file = host.resolve path) := by
  induction paths generalizing world with
  | nil => exact Or.inl rfl
  | cons path paths ih =>
      have first := remove_files host path world file
      rw [run_cons]
      cases outcome : remove host path world with
      | raised next =>
          rw [outcome] at first
          exact first.imp_right fun gone => ⟨gone.1, path, by simp, gone.2⟩
      | completed next =>
          rw [outcome, Outcome.state_completed] at first
          rw [Outcome.andThen_completed]
          rcases ih next with same | ⟨gone, other, member, eq⟩
          · rcases first with kept | ⟨removed, eq⟩
            · exact Or.inl (same.trans kept)
            · exact Or.inr ⟨same.trans removed, path, by simp, eq⟩
          · exact Or.inr ⟨gone, other, by simp [member], eq⟩

/-- The cleanup leaves all files but intermediate products alone. -/
theorem finish_files (options : Options) (baseNames : List Text)
    (world : World) (file : Text) :
    (finish host options baseNames world).state.files file = world.files file ∨
      ((finish host options baseNames world).state.files file = none ∧
        ∃ name ∈ baseNames, ∃ path ∈ intermediates name,
          file = host.resolve path) := by
  rw [finish_eq]
  split
  · exact Or.inl rfl
  · rcases run_remove_files host (baseNames.flatMap intermediates) world file
      with same | ⟨gone, path, member, eq⟩
    · exact Or.inl same
    · obtain ⟨name, nameMem, pathMem⟩ := List.mem_flatMap.mp member
      exact Or.inr ⟨gone, name, nameMem, path, pathMem, eq⟩

/-- The driver leaves all files but the products of its sources as the pipeline
left them. -/
theorem runDriver_files_of_ne {args : List Text} (files : Files) {file : Text}
    (different : ∀ source ∈ (readCommandLine args).adaFiles,
      ∀ path ∈ intermediates (adaToBaseName source), file ≠ host.resolve path) :
    (runDriver host args files).world.files file =
      (planOutcome host args files).state.files file := by
  obtain ⟨started, isPrefix, ends⟩ := runDriver_eq host args files
  rw [ends]
  rcases finish_files host (commandLineOptions args) (started.map adaToBaseName)
      (planOutcome host args files).state file with
    same | ⟨_, name, member, path, pathMem, eq⟩
  · exact same
  · obtain ⟨source, sourceMem, rfl⟩ := List.mem_map.mp member
    exact absurd eq (different source (isPrefix.subset sourceMem) path pathMem)

end Cleanup

section Runs

variable (tools : Tools) (directory : Directory) (args : List Text)
  (files : Files)

theorem map_snd_passes (carried : LoopVariables) (sources : List Text) :
    (passes carried sources).map Prod.snd = sources := by
  induction sources generalizing carried with
  | nil => rfl
  | cons file sources ih => simp [passes, ih]

theorem map_snd_commandLinePasses :
    (commandLinePasses args).map Prod.snd = (readCommandLine args).adaFiles :=
  map_snd_passes _ _

/-- The sources of a command line are those of its passes. -/
theorem mem_adaFiles_iff {file : Text} :
    file ∈ (readCommandLine args).adaFiles ↔
      ∃ pass ∈ commandLinePasses args, pass.2 = file := by
  rw [← map_snd_commandLinePasses, List.mem_map]

end Runs

/-- Whatever the files, the passes leave the translation of each source and the
other arguments. -/
structure PassesIntact (tools : Tools) (directory : Directory)
    (args : List Text) : Prop where
  translated : ∀ files, SourcesExist directory args files →
    ∀ file ∈ (readCommandLine args).adaFiles, ∃ pass ∈ commandLinePasses args,
      (commandLinePasses args).foldl
          (passFiles tools directory (commandLineOptions args)) files
          (directory.resolve (adaToBaseName file ++ asmExtension)) =
        (files (directory.resolve file)).map
          (tools.translation (commandLineOptions args).keepAdaMain
            pass.1.gnatOptions.join pass.1.llcOptions.join)
  kept : ∀ files, ∀ arg ∈ ordinaryArguments args,
    (commandLinePasses args).foldl
        (passFiles tools directory (commandLineOptions args)) files
        (directory.resolve arg) =
      files (directory.resolve arg)

/-- With names apart, the passes leave everything intact. -/
theorem NamesApart.passesIntact {directory : Directory} {args : List Text}
    (apart : NamesApart directory args) (tools : Tools) :
    PassesIntact tools directory args where
  translated files exist file member := by
    obtain ⟨pass, passMem, rfl⟩ := (mem_adaFiles_iff args).mp member
    have isSource {other : LoopVariables × Text}
        (otherMem : other ∈ commandLinePasses args) :
        other.2 ∈ (readCommandLine args).adaFiles :=
      (mem_adaFiles_iff args).mpr ⟨other, otherMem, rfl⟩
    have products := apart.products
    rw [← map_snd_commandLinePasses, List.pairwise_map] at products
    exact foldl_passFiles_translated
      (fun first firstMem second secondMem =>
        apart.sources first.2 (isSource firstMem) second.2 (isSource secondMem))
      products (fun other otherMem => exist other.2 (isSource otherMem))
      pass passMem
  kept files arg argMem :=
    foldl_passFiles_of_ne fun pass member =>
      apart.arguments arg argMem pass.2
        ((mem_adaFiles_iff args).mpr ⟨pass, member, rfl⟩)

section Marking

/-- Tools that tell one source text from all others and never write it. -/
def markingTools : Tools where
  bitcode _ source := if source = ['u'] then ['a'] else ['b']
  library _ _ := ['b']
  assembly _ bitcode := bitcode

theorem markingTools_translation (keepAdaMain : Bool)
    (gnatOptions llcOptions source : Text) :
    markingTools.translation keepAdaMain gnatOptions llcOptions source =
      if source = ['u'] then ['a'] else ['b'] := by
  have unchanged : ∀ keepAdaMain : Bool,
      postprocessedText keepAdaMain ['a'] = ['a'] ∧
        postprocessedText keepAdaMain ['b'] = ['b'] := by
    decide
  unfold Tools.translation markingTools
  dsimp only
  split
  · exact (unchanged keepAdaMain).1
  · exact (unchanged keepAdaMain).2

variable {directory : Directory} {options : Options}

/-- A product of the source of a pass holds what the tools wrote. -/
theorem passFiles_marking {files : Files} {pass : LoopVariables × Text}
    {path : Text} (member : path ∈ intermediates (adaToBaseName pass.2)) :
    passFiles markingTools directory options files pass
      (directory.resolve path) ≠ some ['u'] := by
  rw [passFiles, markingTools_translation]
  simp only [intermediates, List.mem_cons, List.not_mem_nil, or_false] at member
  have written (source : Text) :
      (if source = ['u'] then ['a'] else ['b']) ≠ (['u'] : Text) := by
    split <;> decide
  rcases member with rfl | rfl | rfl
  · rw [update_self]
    exact fun same => written _ (Option.some.inj same)
  · rw [update_of_ne (resolve_asm_ne_bc directory _ _).symm,
      update_of_ne (resolve_bc_ne_ali directory _ _), update_self]
    exact fun same => written _ (Option.some.inj same)
  · rw [update_of_ne (resolve_asm_ne_ali directory _ _).symm, update_self]
    simp [markingTools]

/-- A file that the tools have written never has the marked text again. -/
theorem passFiles_marking_of_ne {files : Files} {file : Text}
    (unmarked : files file ≠ some ['u']) (pass : LoopVariables × Text) :
    passFiles markingTools directory options files pass file ≠ some ['u'] := by
  by_cases product : ∃ path ∈ intermediates (adaToBaseName pass.2),
      file = directory.resolve path
  · obtain ⟨path, member, rfl⟩ := product
    exact passFiles_marking member
  · rwa [passFiles_of_ne fun path member eq => product ⟨path, member, eq⟩]

theorem foldl_passFiles_marking {files : Files}
    {done : List (LoopVariables × Text)} {file : Text}
    (overwritten : files file ≠ some ['u'] ∨ ∃ pass ∈ done,
      ∃ path ∈ intermediates (adaToBaseName pass.2),
        file = directory.resolve path) :
    done.foldl (passFiles markingTools directory options) files file ≠
      some ['u'] := by
  induction done generalizing files with
  | nil => simpa using overwritten
  | cons pass done ih =>
      rw [List.foldl_cons]
      apply ih
      rcases overwritten with unmarked | ⟨other, member, path, pathMem, rfl⟩
      · exact Or.inl (passFiles_marking_of_ne unmarked pass)
      · rcases List.mem_cons.mp member with rfl | later
        · exact Or.inl (passFiles_marking pathMem)
        · exact Or.inr ⟨other, later, path, pathMem, rfl⟩

theorem translation_overwritten {content : Option Text}
    (overwritten : content ≠ some ['u']) (keepAdaMain : Bool)
    (gnatOptions llcOptions : Text) :
    markingTools.translation keepAdaMain gnatOptions llcOptions
      (content.getD []) = ['b'] := by
  rw [markingTools_translation, if_neg]
  cases content with
  | none => simp
  | some text => simpa using overwritten

/-- Once a source has been overwritten, every later pass for its base name
translates the wrong text. -/
theorem foldl_passFiles_mistranslated {files : Files}
    {rest : List (LoopVariables × Text)} {file : Text}
    (sources : ∀ pass ∈ rest, adaToBaseName file = adaToBaseName pass.2 →
      directory.resolve file = directory.resolve pass.2)
    (overwritten : files (directory.resolve file) ≠ some ['u'])
    (mistranslated : files (directory.resolve
        (adaToBaseName file ++ asmExtension)) = some ['b']) :
    rest.foldl (passFiles markingTools directory options) files
        (directory.resolve (adaToBaseName file ++ asmExtension)) =
      some ['b'] := by
  induction rest generalizing files with
  | nil => exact mistranslated
  | cons pass rest ih =>
      rw [List.foldl_cons]
      refine ih (fun other member => sources other (by simp [member]))
        (passFiles_marking_of_ne overwritten pass) ?_
      by_cases sameName : adaToBaseName file = adaToBaseName pass.2
      · have sameSource := sources pass (by simp) sameName
        rw [sameName, passFiles_asm, ← sameSource,
          translation_overwritten overwritten]
      · rwa [passFiles_of_ne (asmFile_ne_intermediate sameName)]

end Marking

section Necessity

variable {directory : Directory} {args : List Text}
  (intact : PassesIntact markingTools directory args)

include intact

/-- Sources of one base name leave one assembly file, so they are the same. -/
theorem PassesIntact.sources {first second : Text}
    (firstMem : first ∈ (readCommandLine args).adaFiles)
    (secondMem : second ∈ (readCommandLine args).adaFiles)
    (sameName : adaToBaseName first = adaToBaseName second) :
    directory.resolve first = directory.resolve second := by
  by_contra different
  let files : Files := fun file =>
    if file = directory.resolve first then some ['u'] else some ['v']
  have exist : SourcesExist directory args files := by
    intro file _
    dsimp only [files]
    split <;> rfl
  obtain ⟨_, _, firstLeft⟩ :=
    intact.translated files exist first firstMem
  obtain ⟨_, _, secondLeft⟩ :=
    intact.translated files exist second secondMem
  rw [sameName, secondLeft] at firstLeft
  simp [files, markingTools_translation, Ne.symm different] at firstLeft

/-- No source is read after a pass has overwritten it. -/
theorem PassesIntact.unread {done rest : List (LoopVariables × Text)}
    {earlier pass : LoopVariables × Text} {path : Text}
    (split : commandLinePasses args = done ++ pass :: rest)
    (earlierMem : earlier ∈ done)
    (pathMem : path ∈ intermediates (adaToBaseName earlier.2)) :
    directory.resolve pass.2 ≠ directory.resolve path := by
  intro same
  let files : Files := fun _ => some ['u']
  have member {other : LoopVariables × Text}
      (otherMem : other ∈ done ++ pass :: rest) :
      other.2 ∈ (readCommandLine args).adaFiles :=
    (mem_adaFiles_iff args).mpr ⟨other, split ▸ otherMem, rfl⟩
  obtain ⟨_, _, translated⟩ := intact.translated files
    (fun _ _ => rfl) pass.2 (member (by simp))
  let passed := done.foldl
    (passFiles markingTools directory (commandLineOptions args)) files
  let compiled :=
    passFiles markingTools directory (commandLineOptions args) passed pass
  have overwritten : passed (directory.resolve pass.2) ≠ some ['u'] :=
    foldl_passFiles_marking
      (Or.inr ⟨earlier, earlierMem, path, pathMem, same⟩)
  have read : compiled
      (directory.resolve (adaToBaseName pass.2 ++ asmExtension)) = some _ :=
    passFiles_asm passed pass
  rw [translation_overwritten overwritten] at read
  have mistranslated : rest.foldl
      (passFiles markingTools directory (commandLineOptions args)) compiled
        (directory.resolve (adaToBaseName pass.2 ++ asmExtension)) =
      some ['b'] :=
    foldl_passFiles_mistranslated
      (fun other otherMem =>
        intact.sources (member (by simp)) (member (by simp [otherMem])))
      (passFiles_marking_of_ne overwritten pass) read
  rw [split, List.foldl_append, List.foldl_cons, mistranslated] at translated
  simp [files, markingTools_translation] at translated

theorem PassesIntact.products :
    (readCommandLine args).adaFiles.Pairwise fun first second =>
      ∀ path ∈ intermediates (adaToBaseName first),
        directory.resolve second ≠ directory.resolve path := by
  rw [← map_snd_commandLinePasses, List.pairwise_map, List.pairwise_iff_getElem]
  intro first second firstBound secondBound before path pathMem
  have split : commandLinePasses args =
      (commandLinePasses args).take second ++
        (commandLinePasses args)[second] ::
          (commandLinePasses args).drop (second + 1) := by
    rw [List.getElem_cons_drop, List.take_append_drop]
  refine intact.unread split ?_ pathMem
  exact List.mem_take_iff_getElem.mpr ⟨first, by omega, rfl⟩

/-- No other argument names a product. -/
theorem PassesIntact.arguments {arg file path : Text}
    (argMem : arg ∈ ordinaryArguments args)
    (fileMem : file ∈ (readCommandLine args).adaFiles)
    (pathMem : path ∈ intermediates (adaToBaseName file)) :
    directory.resolve arg ≠ directory.resolve path := by
  intro same
  obtain ⟨pass, passMem, rfl⟩ := (mem_adaFiles_iff args).mp fileMem
  have overwritten : (commandLinePasses args).foldl
      (passFiles markingTools directory (commandLineOptions args))
      (fun _ => some ['u']) (directory.resolve arg) ≠ some ['u'] :=
    foldl_passFiles_marking (Or.inr ⟨pass, passMem, path, pathMem, same⟩)
  exact overwritten (intact.kept _ arg argMem)

/-- The passes leave everything intact only if the names are apart. -/
theorem PassesIntact.namesApart : NamesApart directory args where
  sources _ firstMem _ secondMem := intact.sources firstMem secondMem
  products := intact.products
  arguments _ argMem _ fileMem _ := intact.arguments argMem fileMem

end Necessity

/-- A directory without links, whose paths are the names of its files. -/
def plainDirectory : Directory where
  resolve path := path
  resolve_injective _ _ same := same

end Driver

end AdacHybridMsp430
