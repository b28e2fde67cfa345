import AdacHybridMsp430.PathNames

/-!
# The command line of the compiler driver

The constants of `msp430-elf-adac` and the loop that sorts its arguments into
Ada sources, options of the single tools, options of the driver itself, and
everything else, which is kept for the final call of the C compiler.
-/

namespace AdacHybridMsp430

namespace Driver

open PathNames

def adacVersionString : Text := "1.0.1".toList

def adaDefExtension : Text := ".adb".toList
def adaDecExtension : Text := ".ads".toList
def asmExtension : Text := ".s".toList
def bcExtension : Text := ".bc".toList
def aliExtension : Text := ".ali".toList

def llvmGccProgram : Text := "llvm-gcc".toList
def llvmGccFlags : Text := "-emit-llvm".toList
def llcProgram : Text := "llc-9".toList
def llcFlags : Text := "-march=msp430".toList
def mspGccProgram : Text := "msp430-elf-gcc".toList

def adacOptionPrefix : Text := "-Wadac,".toList
def gnatOptionPrefix : Text := "-Wgnat,".toList
def llcOptionPrefix : Text := "-Wllc,".toList
def directGnatOptionPrefix : Text := "-gnat".toList
def languageOption : Text := "-x".toList
def versionOption : Text := "--version".toList

def adaMain : Text := "keep_ada_main".toList
def keepIntermediates : Text := "keep_intermediates".toList

/-- The name that the intermediate products of a source share. -/
def adaToBaseName (name : Text) : Text :=
  (splitext (basename name)).1

theorem slash_not_mem_adaToBaseName (name : Text) :
    '/' ∉ adaToBaseName name := fun member =>
  slash_not_mem_basename name ((prefix_splitext_fst _).subset member)

/-- The branch of the argument loop that an argument takes. -/
inductive ArgumentKind
  | language
  | adaSource
  | gnatOption (option : Text)
  | adacOption (option : Text)
  | llcOption (option : Text)
  | other
deriving DecidableEq

/-- The chain of tests in the body of the argument loop. -/
def argumentKind (arg : Text) : ArgumentKind :=
  if arg = languageOption then
    .language
  else if adaDefExtension.isSuffixOf arg || adaDecExtension.isSuffixOf arg then
    .adaSource
  else if gnatOptionPrefix.isPrefixOf arg then
    .gnatOption (arg.drop gnatOptionPrefix.length)
  else if directGnatOptionPrefix.isPrefixOf arg then
    .gnatOption arg
  else if adacOptionPrefix.isPrefixOf arg then
    .adacOption (arg.drop adacOptionPrefix.length)
  else if llcOptionPrefix.isPrefixOf arg then
    .llcOption (arg.drop llcOptionPrefix.length)
  else
    .other

/-- The variables that the argument loop fills. -/
structure CommandLine where
  stdout : List Text := []
  gccCmdLine : Text := []
  adacOptions : List Text := []
  llcOptions : List Text := []
  gnatOptions : List Text := []
  adaFiles : List Text := []
  ignoreNextOption : Bool := false
deriving DecidableEq

/-- The version is printed before an argument is classified. -/
def announceVersion (line : CommandLine) (arg : Text) : CommandLine :=
  if arg = versionOption then
    { line with
      stdout := line.stdout ++
        ["msp430-elf-adac version=".toList ++ adacVersionString] }
  else
    line

/-- One pass of the argument loop.  `--version` itself is classified like any
other argument. -/
def readArgument (line : CommandLine) (arg : Text) : CommandLine :=
  if line.ignoreNextOption then
    { line with ignoreNextOption := false }
  else
    let line := announceVersion line arg
    match argumentKind arg with
    | .language => { line with ignoreNextOption := true }
    | .adaSource =>
        { line with
          adaFiles := line.adaFiles ++ [arg]
          gccCmdLine := line.gccCmdLine ++
            ' ' :: (adaToBaseName arg ++ asmExtension) }
    | .gnatOption option =>
        { line with gnatOptions := line.gnatOptions ++ [option] }
    | .adacOption option =>
        { line with adacOptions := line.adacOptions ++ [option] }
    | .llcOption option =>
        { line with llcOptions := line.llcOptions ++ [option] }
    | .other => { line with gccCmdLine := line.gccCmdLine ++ ' ' :: arg }

/-- The argument loop, from its initial variables. -/
def readCommandLine (args : List Text) : CommandLine :=
  args.foldl readArgument {}

/-- The settings that `-Wadac,` options change. -/
structure Options where
  keepAdaMain : Bool := false
  keepIntermediates : Bool := false
deriving DecidableEq

def parseOptions (options : Options) (adacOptions : List Text) : Options where
  keepAdaMain := options.keepAdaMain || adacOptions.contains adaMain
  keepIntermediates :=
    options.keepIntermediates || adacOptions.contains keepIntermediates

end Driver

end AdacHybridMsp430
