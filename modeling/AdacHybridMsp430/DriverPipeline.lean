import AdacHybridMsp430.AbortingRuns
import AdacHybridMsp430.AssemblyPostprocessing
import AdacHybridMsp430.DriverCommandLine
import Mathlib.Logic.Function.Basic

/-!
# The pipeline of the compiler driver

The part of `msp430-elf-adac` after the argument loop: the tools run by
`os.system`, the post-processing of the assembly files, and the cleanup in the
`finally` clause.  The host answers every tool invocation with a status and
with the files it leaves; the driver never looks at the status.
-/

namespace AdacHybridMsp430

namespace Driver

open AbortingRuns Assembly

/-- A command that the driver passes to `executeCmd`, by the values that its
format string interpolates. -/
inductive Command
  | llvmGcc (gnatOptions file : Text)
  | llc (llcOptions asmFile bcFile : Text)
  | sed (fileName : Text)
  | mspGcc (gccCmdLine : Text)
deriving DecidableEq

/-- Fields with blanks between them, as the format strings put them. -/
def fields : List Text → Text
  | [] => []
  | [last] => last
  | field :: rest => field ++ ' ' :: fields rest

/-- The command string. -/
def Command.text : Command → Text
  | .llvmGcc gnatOptions file =>
      fields [llvmGccProgram, llvmGccFlags, gnatOptions, "-c".toList, file]
  | .llc llcOptions asmFile bcFile =>
      fields [llcProgram, llcFlags, llcOptions, "-o".toList, asmFile, bcFile]
  | .sed fileName => fields ["sed -i 's/_ada_main/main/g'".toList, fileName]
  | .mspGcc gccCmdLine => fields [mspGccProgram, gccCmdLine]

/-- The contents of the existing files. -/
abbrev Files := Text → Option Text

/-- The file that each path denotes.  Names without a slash denote files of the
working directory, which are distinct for distinct names. -/
structure Directory where
  resolve : Text → Text
  resolve_injective : ∀ {first second : Text},
    '/' ∉ first → '/' ∉ second → resolve first = resolve second → first = second

/-- The system around the driver.  A tool invocation may depend on how many
came before it, so every assignment of outcomes to the invocations of a run is
some host.  Three fields say at which invocation count a call of `os.system`, a
read or an append raises an exception.  The last two say for which paths the
announcement of a removal, or the removal, raises one, as `os.remove` does for a
directory; a path is removed at most once in a run. -/
structure Host extends Directory where
  system : Nat → Command → Files → Nat × Files
  systemRaises : Nat → Bool
  readRaises : Nat → Bool
  appendRaises : Nat → Bool
  announceRaises : Text → Bool := fun _ => false
  removeRaises : Text → Bool := fun _ => false

/-- The state of a run: the files, the standard output, the commands issued so
far with their statuses, and the paths removed by the driver itself. -/
structure World where
  files : Files
  stdout : List Text
  issued : List (Command × Nat)
  removed : List Text

section Operations

variable (host : Host)

/-- `executeCmd`: the status that `os.system` returns is dropped. -/
def executeCmd (command : Command) (world : World) : Outcome World :=
  let count := world.issued.length
  let response := host.system count command world.files
  let after : World :=
    { files := response.2
      stdout := world.stdout ++ [command.text]
      issued := world.issued ++ [(command, response.1)]
      removed := world.removed }
  if host.systemRaises count then .raised after else .completed after

/-- `findContructorNames`; no result means that opening or reading the file
raised an exception. -/
def findContructorNames (fileName : Text) (world : World) :
    Option (List Text) :=
  if host.readRaises world.issued.length then none
  else (world.files (host.resolve fileName)).map contructorNames

def appendConstructorSections (fileName : Text) (constructors : List Text)
    (world : World) : Outcome World :=
  if constructors.length = 0 then
    .completed world
  else if host.appendRaises world.issued.length then
    .raised world
  else
    let file := host.resolve fileName
    .completed
      { world with
        files := Function.update world.files file
          (some ((world.files file).getD [] ++
            constructorSections constructors)) }

/-- The end of `postprocessAsm`: collect the constructors and append their
sections. -/
def registerConstructors (fileName : Text) (world : World) : Outcome World :=
  match findContructorNames host fileName world with
  | none => .raised world
  | some constructors =>
      appendConstructorSections host fileName constructors world

def postprocessAsm (options : Options) (fileName : Text) (world : World) :
    Outcome World :=
  if options.keepAdaMain then
    registerConstructors host fileName world
  else
    (executeCmd host (.sed fileName) world).andThen
      (registerConstructors host fileName)

def remove (path : Text) (world : World) : Outcome World :=
  if (world.files (host.resolve path)).isSome then
    if host.announceRaises path then
      .raised world
    else
      let announced : World :=
        { world with
          stdout := world.stdout ++
            ["Removing intermediate product ".toList ++ path] }
      if host.removeRaises path then
        .raised announced
      else
        .completed
          { announced with
            files := Function.update announced.files (host.resolve path) none
            removed := announced.removed ++ [path] }
  else
    .completed world

/-- The intermediate products of a base name. -/
def intermediates (baseName : Text) : List Text :=
  [baseName ++ asmExtension, baseName ++ bcExtension, baseName ++ aliExtension]

def cleanUpIntermediates (baseName : Text) : World → Outcome World :=
  run (remove host) (intermediates baseName)

end Operations

/-- What the option variables hold: the list that the argument loop built, or
the string that an earlier pass of the compilation loop bound them to. -/
inductive OptionVariable
  | list (options : List Text)
  | string (text : Text)
deriving DecidableEq

/-- `" ".join(...)`, which puts the blank between the characters of a string. -/
def OptionVariable.join : OptionVariable → Text
  | .list options => [' '].intercalate options
  | .string text => text.intersperse ' '

/-- The variables that the compilation loop carries from file to file. -/
structure LoopVariables where
  gnatOptions : OptionVariable
  llcOptions : OptionVariable
  baseNames : List Text
deriving DecidableEq

def loopStart (line : CommandLine) : LoopVariables where
  gnatOptions := .list line.gnatOptions
  llcOptions := .list line.llcOptions
  baseNames := []

/-- The body of the compilation loop.  The base name is recorded before the
first tool runs, so that an exception still cleans up after this file. -/
def compileFile (host : Host) (options : Options) (carried : LoopVariables)
    (file : Text) (world : World) : LoopVariables × Outcome World :=
  let baseName := adaToBaseName file
  let bcFile := baseName ++ bcExtension
  let asmFile := baseName ++ asmExtension
  let gnatOptions := carried.gnatOptions.join
  let llcOptions := carried.llcOptions.join
  ({ gnatOptions := .string gnatOptions
     llcOptions := .string llcOptions
     baseNames := carried.baseNames ++ [baseName] },
    ((executeCmd host (.llvmGcc gnatOptions file) world).andThen
      (executeCmd host (.llc llcOptions asmFile bcFile))).andThen
        (postprocessAsm host options asmFile))

/-- The compilation loop. -/
def compileFiles (host : Host) (options : Options) :
    LoopVariables → List Text → World → LoopVariables × Outcome World
  | carried, [], world => (carried, .completed world)
  | carried, file :: files, world =>
      match compileFile host options carried file world with
      | (carried, .raised world) => (carried, .raised world)
      | (carried, .completed world) =>
          compileFiles host options carried files world

/-- The end of a run: the exit status of the process and the final state. -/
structure Exit where
  status : Nat
  world : World

/-- The `finally` clause, whose loop an exception ends as well. -/
def finish (host : Host) (options : Options) (baseNames : List Text)
    (world : World) : Outcome World :=
  if options.keepIntermediates then .completed world
  else run (cleanUpIntermediates host) baseNames world

/-- The state in which the pipeline starts. -/
def startWorld (line : CommandLine) (files : Files) : World where
  files := files
  stdout := line.stdout
  issued := []
  removed := []

/-- The whole driver.  An exception ends the process with status 1 after the
`finally` clause, and so does an exception in that clause; otherwise the status
is 0. -/
def runDriver (host : Host) (args : List Text) (files : Files) : Exit :=
  let line := readCommandLine args
  let options := parseOptions {} line.adacOptions
  let compiled := compileFiles host options (loopStart line) line.adaFiles
    (startWorld line files)
  let outcome := compiled.2.andThen
    (executeCmd host (.mspGcc line.gccCmdLine))
  let finished := finish host options compiled.1.baseNames outcome.state
  { status := if outcome.hasRaised || finished.hasRaised then 1 else 0
    world := finished.state }

end Driver

end AdacHybridMsp430
