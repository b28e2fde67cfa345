import AdacHybridMsp430.DriverArguments
import AdacHybridMsp430.DriverPlan
import AdacHybridMsp430.ShellWords

/-!
# Forwarding options to several files

The compilation loop joins the option lists into strings and keeps the strings
for its next pass, where joining them again puts a blank after every character.
A file after the first is therefore compiled with the options of the command
line only when all their words are single characters.
-/

namespace AdacHybridMsp430

namespace Driver

open BlankSeparated ShellWords

/-- The words of a command string between the blanks of the shell. -/
def Command.words (command : Command) : List Text :=
  BlankSeparated.words isBlank command.text

/-- The commands of the pass for the Ada source at an index. -/
def passCommands (args : List Text) (index : Nat) : List Command :=
  ((commandLinePasses args)[index]?.map fun pass =>
    fileCommands (commandLineOptions args) pass.1 pass.2).getD []

/-- All commands before the call of the C compiler. -/
def compilationCommands (args : List Text) : List Command :=
  (commandLinePasses args).flatMap fun pass =>
    fileCommands (commandLineOptions args) pass.1 pass.2

/-- Compiling the sources of a command line together issues the commands that
compiling each of them alone would. -/
structure CompilesLikeSingleFiles (args : List Text) : Prop where
  each : ∀ index < (readCommandLine args).adaFiles.length,
    (passCommands args index).map Command.words =
      (passCommands (onlySource index args) 0).map Command.words
  together :
    (compilationCommands args).map Command.words =
      (List.range (readCommandLine args).adaFiles.length).flatMap fun index =>
        (compilationCommands (onlySource index args)).map Command.words

/-- The string that a pass joins, by the number of passes before it. -/
def OptionVariable.joined (options : OptionVariable) : Nat → Text
  | 0 => options.join
  | pass + 1 => (options.joined pass).intersperse ' '

theorem OptionVariable.joined_string_join (options : OptionVariable)
    (pass : Nat) :
    (OptionVariable.string options.join).joined pass =
      options.joined (pass + 1) := by
  induction pass with
  | zero => rfl
  | succ pass ih => exact congrArg (List.intersperse ' ') ih

theorem length_passes (carried : LoopVariables) (files : List Text) :
    (passes carried files).length = files.length := by
  induction files generalizing carried with
  | nil => rfl
  | cons file files ih => simp [passes, ih]

/-- What a pass of the compilation loop sees. -/
theorem passes_getElem? {carried : LoopVariables} {files : List Text}
    {index : Nat} {pass : LoopVariables × Text}
    (found : (passes carried files)[index]? = some pass) :
    files[index]? = some pass.2 ∧
      pass.1.gnatOptions.join = carried.gnatOptions.joined index ∧
      pass.1.llcOptions.join = carried.llcOptions.joined index := by
  induction files generalizing carried index with
  | nil => simp [passes] at found
  | cons file files ih =>
      cases index with
      | zero =>
          simp only [passes, List.getElem?_cons_zero, Option.some.injEq] at found
          subst found
          exact ⟨rfl, rfl, rfl⟩
      | succ index =>
          simp only [passes, List.getElem?_cons_succ] at found
          have tail := ih found
          simpa [LoopVariables.next, OptionVariable.joined_string_join]
            using tail

/-- The option string of a pass, by the options of the command line. -/
def passText (options : List Text) (index : Nat) : Text :=
  (OptionVariable.list options).joined index

/-- The pass of a source, with the options that it hands on. -/
theorem pass_of_adaFile {args : List Text} {index : Nat} {file : Text}
    (found : (readCommandLine args).adaFiles[index]? = some file) :
    ∃ pass, (commandLinePasses args)[index]? = some pass ∧ pass.2 = file ∧
      pass.1.gnatOptions.join =
        passText (readCommandLine args).gnatOptions index ∧
      pass.1.llcOptions.join =
        passText (readCommandLine args).llcOptions index := by
  have inRange : index < (commandLinePasses args).length := by
    rw [commandLinePasses, length_passes]
    exact (List.getElem?_eq_some_iff.mp found).1
  have passFound := List.getElem?_eq_getElem inRange
  obtain ⟨fileEq, gnatEq, llcEq⟩ := passes_getElem? passFound
  rw [found, Option.some.injEq] at fileEq
  exact ⟨_, passFound, fileEq.symm, gnatEq, llcEq⟩

theorem passCommands_eq {args : List Text} {index : Nat} {file : Text}
    (found : (readCommandLine args).adaFiles[index]? = some file) :
    passCommands args index =
      commandsFor (commandLineOptions args)
        (passText (readCommandLine args).gnatOptions index)
        (passText (readCommandLine args).llcOptions index) file := by
  obtain ⟨pass, passFound, rfl, gnatEq, llcEq⟩ := pass_of_adaFile found
  rw [passCommands, passFound, Option.map_some, Option.getD_some,
    fileCommands, gnatEq, llcEq]

theorem passCommands_onlySource {args : List Text} {index : Nat} {file : Text}
    (found : (readCommandLine args).adaFiles[index]? = some file) :
    passCommands (onlySource index args) 0 =
      commandsFor (commandLineOptions args)
        (passText (readCommandLine args).gnatOptions 0)
        (passText (readCommandLine args).llcOptions 0) file := by
  have only : (readCommandLine (onlySource index args)).adaFiles[0]? =
      some file := by
    simp [onlySource_adaFiles, found]
  rw [passCommands_eq only, onlySource_gnatOptions, onlySource_llcOptions,
    commandLineOptions, onlySource_adacOptions]
  rfl

theorem isBlank_blank : isBlank ' ' = true :=
  rfl

/-- The words of a command are those of its fields. -/
theorem words_fields (parts : List Text) :
    words isBlank (fields parts) = parts.flatMap (words isBlank) := by
  induction parts with
  | nil => simp [fields]
  | cons part parts ih =>
      cases parts with
      | nil => simp [fields]
      | cons second rest =>
          rw [fields, words_append_blank isBlank isBlank_blank, ih]
          · rfl
          · simp

/-- Two option strings give the same commands exactly when they have the same
words. -/
theorem map_words_commandsFor_eq_iff (options : Options)
    (gnatText gnatText' llcText llcText' file : Text) :
    (commandsFor options gnatText llcText file).map Command.words =
        (commandsFor options gnatText' llcText' file).map Command.words ↔
      words isBlank gnatText = words isBlank gnatText' ∧
        words isBlank llcText = words isBlank llcText' := by
  simp only [commandsFor, List.map_append, List.map_cons, List.map_nil,
    List.append_cancel_right_eq, List.cons.injEq, and_true, Command.words,
    Command.text, words_fields, List.flatMap_cons, List.append_cancel_left_eq]

/-- Every word of every option is a single character. -/
def SingleCharacterWords (options : List Text) : Prop :=
  ∀ option ∈ options, ∀ word ∈ words isBlank option, word.length = 1

theorem words_passText_zero (options : List Text) :
    words isBlank (passText options 0) = options.flatMap (words isBlank) :=
  words_intercalate isBlank isBlank_blank options

theorem singleCharacterWords_iff (options : List Text) :
    SingleCharacterWords options ↔
      ∀ word ∈ words isBlank (passText options 0), word.length = 1 := by
  rw [words_passText_zero]
  simp only [SingleCharacterWords, List.mem_flatMap]
  constructor
  · rintro single word ⟨option, optionMem, wordMem⟩
    exact single option optionMem word wordMem
  · intro single option optionMem word wordMem
    exact single word ⟨option, optionMem, wordMem⟩

/-- Joining a string again keeps its words exactly when they are single
characters. -/
theorem words_passText_one_eq_iff (options : List Text) :
    words isBlank (passText options 1) = words isBlank (passText options 0) ↔
      SingleCharacterWords options := by
  rw [singleCharacterWords_iff]
  exact words_intersperse_eq_iff isBlank isBlank_blank _

/-- Single-character words survive every further pass. -/
theorem words_passText_eq {options : List Text}
    (single : SingleCharacterWords options) (index : Nat) :
    words isBlank (passText options index) =
      words isBlank (passText options 0) := by
  induction index with
  | zero => rfl
  | succ index ih =>
      have stillSingle : ∀ word ∈ words isBlank (passText options index),
          word.length = 1 := by
        rw [ih]
        exact (singleCharacterWords_iff options).mp single
      exact ((words_intersperse_eq_iff isBlank isBlank_blank _).mpr
        stillSingle).trans ih

/-- A pass issues the commands of a single-file compilation exactly when its
option strings still have the words of the options. -/
theorem map_words_passCommands_eq_iff {args : List Text} {index : Nat}
    (inRange : index < (readCommandLine args).adaFiles.length) :
    (passCommands args index).map Command.words =
        (passCommands (onlySource index args) 0).map Command.words ↔
      words isBlank (passText (readCommandLine args).gnatOptions index) =
          words isBlank (passText (readCommandLine args).gnatOptions 0) ∧
        words isBlank (passText (readCommandLine args).llcOptions index) =
          words isBlank (passText (readCommandLine args).llcOptions 0) := by
  have found := List.getElem?_eq_getElem inRange
  rw [passCommands_eq found, passCommands_onlySource found,
    map_words_commandsFor_eq_iff]

theorem flatMap_range_getElem? {α β : Type*} (items : List α)
    (commands : α → List β) :
    ((List.range items.length).flatMap fun index =>
        (items[index]?.map commands).getD []) = items.flatMap commands := by
  induction items with
  | nil => rfl
  | cons item items ih =>
      simp [List.range_succ_eq_map, List.flatMap_map, ih]

/-- The commands before the call of the C compiler are those of the passes. -/
theorem compilationCommands_eq (args : List Text) :
    compilationCommands args =
      (List.range (readCommandLine args).adaFiles.length).flatMap
        (passCommands args) := by
  have lengths : (commandLinePasses args).length =
      (readCommandLine args).adaFiles.length :=
    length_passes _ _
  rw [← lengths]
  exact (flatMap_range_getElem? (commandLinePasses args) fun pass =>
    fileCommands (commandLineOptions args) pass.1 pass.2).symm

theorem compilationCommands_onlySource {args : List Text} {index : Nat}
    (inRange : index < (readCommandLine args).adaFiles.length) :
    compilationCommands (onlySource index args) =
      passCommands (onlySource index args) 0 := by
  rw [compilationCommands_eq, onlySource_adaFiles,
    List.getElem?_eq_getElem inRange]
  simp

/-- If every pass agrees with a single-file compilation, so does the whole
loop. -/
theorem compilesLikeSingleFiles_of_each {args : List Text}
    (each : ∀ index < (readCommandLine args).adaFiles.length,
      (passCommands args index).map Command.words =
        (passCommands (onlySource index args) 0).map Command.words) :
    CompilesLikeSingleFiles args := by
  refine ⟨each, ?_⟩
  rw [compilationCommands_eq, List.map_flatMap]
  apply List.flatMap_congr
  intro index member
  have inRange := List.mem_range.mp member
  rw [each index inRange, compilationCommands_onlySource inRange]

/-- Several files are compiled like single files exactly when there is at most
one of them or every word of the options is a single character. -/
theorem compilesLikeSingleFiles_iff (args : List Text) :
    CompilesLikeSingleFiles args ↔
      (readCommandLine args).adaFiles.length ≤ 1 ∨
        (SingleCharacterWords (readCommandLine args).gnatOptions ∧
          SingleCharacterWords (readCommandLine args).llcOptions) := by
  constructor
  · intro agrees
    by_cases several : (readCommandLine args).adaFiles.length ≤ 1
    · exact Or.inl several
    · have inRange : 1 < (readCommandLine args).adaFiles.length := by omega
      have second :=
        (map_words_passCommands_eq_iff inRange).mp (agrees.each 1 inRange)
      exact Or.inr ⟨(words_passText_one_eq_iff _).mp second.1,
        (words_passText_one_eq_iff _).mp second.2⟩
  · intro condition
    apply compilesLikeSingleFiles_of_each
    intro index inRange
    rw [map_words_passCommands_eq_iff inRange]
    rcases condition with single | ⟨gnatSingle, llcSingle⟩
    · have first : index = 0 := by omega
      subst first
      exact ⟨rfl, rfl⟩
    · exact ⟨words_passText_eq gnatSingle index,
        words_passText_eq llcSingle index⟩

/-- The second of two files compiled with `-gnatif` gets its characters as
separate words. -/
theorem not_compilesLikeSingleFiles_two_files :
    ¬ CompilesLikeSingleFiles
      ["-gnatif".toList, "a.adb".toList, "b.adb".toList] := by
  intro agrees
  have second := agrees.each 1 (by decide)
  revert second
  decide +kernel

end Driver

end AdacHybridMsp430
