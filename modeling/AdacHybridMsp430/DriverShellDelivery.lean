import AdacHybridMsp430.DriverOptionForwarding

/-!
# Delivering arguments through the shell

The driver glues arguments into command strings that `os.system` hands to a
shell.  This file states what argument vectors the tools should receive, and
proves that they receive them exactly when no argument contains a character
with a meaning to the shell and no option is garbled by the compilation loop.
-/

namespace AdacHybridMsp430

namespace Driver

open BlankSeparated ShellWords

/-- The argument vector that the bytecode compiler should receive. -/
def llvmGccVector (args : List Text) (file : Text) : List Text :=
  [llvmGccProgram, llvmGccFlags] ++ (readCommandLine args).gnatOptions ++
    ["-c".toList, file]

/-- The argument vector that the assembly generator should receive. -/
def llcVector (args : List Text) (file : Text) : List Text :=
  [llcProgram, llcFlags] ++ (readCommandLine args).llcOptions ++
    ["-o".toList, adaToBaseName file ++ asmExtension,
      adaToBaseName file ++ bcExtension]

/-- The argument vector that the C compiler should receive. -/
def mspGccVector (args : List Text) : List Text :=
  mspGccProgram :: gccArguments args

/-- The shell delivers every argument to the tools whole and unchanged. -/
structure ArgumentsDelivered (args : List Text) : Prop where
  mspGcc :
    shellWords (Command.mspGcc (readCommandLine args).gccCmdLine).text =
      some (mspGccVector args)
  llvmGcc : ∀ pass ∈ commandLinePasses args,
    shellWords (Command.llvmGcc pass.1.gnatOptions.join pass.2).text =
      some (llvmGccVector args pass.2)
  llc : ∀ pass ∈ commandLinePasses args,
    shellWords (Command.llc pass.1.llcOptions.join
        (adaToBaseName pass.2 ++ asmExtension)
        (adaToBaseName pass.2 ++ bcExtension)).text =
      some (llcVector args pass.2)

/-- The condition on the arguments: they mean nothing to the shell, and with
several Ada sources all options are single characters. -/
structure Deliverable (args : List Text) : Prop where
  forwarded : ∀ arg ∈ gccArguments args, Plain arg
  sources : ∀ file ∈ (readCommandLine args).adaFiles, Plain file
  options : (readCommandLine args).adaFiles ≠ [] →
    ∀ option ∈ (readCommandLine args).gnatOptions ++
      (readCommandLine args).llcOptions, Plain option
  single : (readCommandLine args).adaFiles.length ≤ 1 ∨
    ∀ option ∈ (readCommandLine args).gnatOptions ++
      (readCommandLine args).llcOptions, option.length = 1

section Options

variable {args : List Text} (deliverable : Deliverable args)

include deliverable

theorem Deliverable.gnatPlain (someSource : (readCommandLine args).adaFiles ≠ []) :
    ∀ option ∈ (readCommandLine args).gnatOptions, Plain option :=
  fun option member =>
    deliverable.options someSource option (List.mem_append_left _ member)

theorem Deliverable.llcPlain (someSource : (readCommandLine args).adaFiles ≠ []) :
    ∀ option ∈ (readCommandLine args).llcOptions, Plain option :=
  fun option member =>
    deliverable.options someSource option (List.mem_append_right _ member)

theorem Deliverable.gnatSingle :
    (readCommandLine args).adaFiles.length ≤ 1 ∨
      ∀ option ∈ (readCommandLine args).gnatOptions, option.length = 1 :=
  deliverable.single.imp_right fun single option member =>
    single option (List.mem_append_left _ member)

theorem Deliverable.llcSingle :
    (readCommandLine args).adaFiles.length ≤ 1 ∨
      ∀ option ∈ (readCommandLine args).llcOptions, option.length = 1 :=
  deliverable.single.imp_right fun single option member =>
    single option (List.mem_append_right _ member)

end Options

section PlainWords

theorem blankFree_of_plain {word : Text} (plain : Plain word) :
    word ≠ [] ∧ ∀ symbol ∈ word, isBlank symbol = false :=
  ⟨plain.nonempty, fun symbol member =>
    isBlank_of_isOrdinary (plain.ordinary symbol member)⟩

theorem flatMap_words_of_plain {parts : List Text}
    (plain : ∀ part ∈ parts, Plain part) :
    parts.flatMap (words isBlank) = parts :=
  flatMap_words_of_blankFree isBlank fun part member =>
    blankFree_of_plain (plain part member)

/-- A word without brackets is plain by its characters and its start. -/
theorem plain_of_bracketFree {word : Text} (nonempty : word ≠ [])
    (ordinary : word.all isOrdinary = true)
    (start : word.head? ≠ some '#' ∧ word.head? ≠ some '~')
    (bracketFree : '[' ∉ word) : Plain word where
  nonempty := nonempty
  ordinary := List.all_eq_true.mp ordinary
  noComment := start.1
  noTilde := start.2
  noBracket before after split :=
    absurd (split ▸ by simp : '[' ∈ word) bracketFree

/-- A test for plain words without brackets. -/
def isBracketFree (word : Text) : Bool :=
  decide (word ≠ []) && word.all isOrdinary &&
    (decide (word.head? ≠ some '#') && decide (word.head? ≠ some '~')) &&
      decide ('[' ∉ word)

theorem plain_of_all_isBracketFree {words : List Text}
    (checked : words.all isBracketFree = true) : ∀ word ∈ words, Plain word := by
  intro word member
  have plain := List.all_eq_true.mp checked word member
  simp only [isBracketFree, Bool.and_eq_true, decide_eq_true_eq] at plain
  obtain ⟨⟨⟨nonempty, ordinary⟩, start⟩, bracketFree⟩ := plain
  exact plain_of_bracketFree nonempty ordinary start bracketFree

/-- Replacing the extension of an assembly file keeps its name plain. -/
theorem plain_bcFile {baseName : Text}
    (plain : Plain (baseName ++ asmExtension)) :
    Plain (baseName ++ bcExtension) := by
  have inBase : ∀ symbol ∈ baseName, isOrdinary symbol = true :=
    fun symbol member => plain.ordinary symbol (by simp [member])
  have sameHead : (baseName ++ bcExtension).head? =
      (baseName ++ asmExtension).head? := by
    cases baseName <;> rfl
  refine ⟨by simp [bcExtension], ?_, ?_, ?_, ?_⟩
  · intro symbol member
    rcases List.mem_append.mp member with old | new
    · exact inBase symbol old
    · have ordinary : bcExtension.all isOrdinary = true := by decide
      exact List.all_eq_true.mp ordinary symbol new
  · rw [sameHead]
    exact plain.noComment
  · rw [sameHead]
    exact plain.noTilde
  · intro before after split
    rcases List.append_eq_append_iff.mp split with
      ⟨middle, _, inExtension⟩ | ⟨middle, rfl, inExtension⟩
    · have member : '[' ∈ bcExtension := by simp [inExtension]
      exact absurd member (by decide)
    · cases middle with
      | nil => simp [bcExtension] at inExtension
      | cons opening middle =>
          obtain ⟨rfl, rfl⟩ := List.cons.inj inExtension
          have closed := plain.noBracket before (middle ++ asmExtension) (by simp)
          rw [List.append_nil, closesBracket_append (by decide) (by decide)]
            at closed
          rw [List.append_nil]
          exact (closesBracket_append (by decide) (by decide) middle).trans closed

end PlainWords

/-- The characters of a text other than blanks. -/
def visible (text : Text) : Text :=
  text.filter fun character => !isBlank character

@[simp]
theorem visible_append (first second : Text) :
    visible (first ++ second) = visible first ++ visible second :=
  List.filter_append ..

@[simp]
theorem visible_blank_cons (text : Text) : visible (' ' :: text) = visible text :=
  List.filter_cons_of_neg (by simp [isBlank_blank])

theorem visible_fields (parts : List Text) :
    visible (fields parts) = visible parts.flatten := by
  induction parts with
  | nil => rfl
  | cons part parts ih =>
      cases parts with
      | nil => simp [fields]
      | cons second rest =>
          rw [fields, visible_append, visible_blank_cons, ih, List.flatten_cons,
            visible_append]
          · simp
          · exact List.cons_ne_nil _ _

/-- The passes change the blanks of the option string, nothing else. -/
theorem visible_passText (options : List Text) (index : Nat) :
    visible (passText options index) = visible options.flatten := by
  induction index with
  | zero =>
      show visible ([' '].intercalate options) = _
      induction options with
      | nil => rfl
      | cons option options ih =>
          cases options with
          | nil => simp
          | cons second rest =>
              rw [List.intercalate_cons_cons, List.append_assoc, visible_append,
                List.singleton_append, visible_blank_cons, ih]
              simp
  | succ index ih =>
      exact (filter_intersperse isBlank isBlank_blank _).trans ih

theorem visible_flatMap_blank (parts : List Text) :
    visible (parts.flatMap (' ' :: ·)) = visible parts.flatten := by
  induction parts with
  | nil => rfl
  | cons part parts ih => simp [ih]

theorem words_append_flatMap_blank (first : Text) (parts : List Text) :
    words isBlank (first ++ parts.flatMap (' ' :: ·)) =
      words isBlank first ++ parts.flatMap (words isBlank) := by
  induction parts generalizing first with
  | nil => simp
  | cons part parts ih =>
      rw [List.flatMap_cons, List.cons_append,
        words_append_blank isBlank isBlank_blank, ih, List.flatMap_cons]

/-- A command delivers the words that it is made of exactly when they are
plain and splitting gives them back. -/
theorem shellWords_fields_eq_some_iff {parts expected : List Text}
    (same : visible parts.flatten = visible expected.flatten) :
    shellWords (fields parts) = some expected ↔
      (∀ word ∈ expected, Plain word) ∧
        parts.flatMap (words isBlank) = expected := by
  rw [shellWords_eq_some_iff ((visible_fields parts).trans same), words_fields]

/-- A command with the option string of a pass in it. -/
theorem shellWords_passText_eq_some_iff (before options after : List Text)
    (index : Nat) :
    shellWords (fields (before ++ passText options index :: after)) =
        some (before ++ options ++ after) ↔
      (∀ word ∈ before ++ options ++ after, Plain word) ∧
        words isBlank (passText options index) = options := by
  rw [shellWords_fields_eq_some_iff]
  · apply and_congr_right
    intro plain
    have beforeWords : before.flatMap (words isBlank) = before :=
      flatMap_words_of_plain fun part member => plain part (by simp [member])
    have afterWords : after.flatMap (words isBlank) = after :=
      flatMap_words_of_plain fun part member => plain part (by simp [member])
    rw [List.flatMap_append, List.flatMap_cons, beforeWords, afterWords,
      ← List.append_assoc, List.append_cancel_right_eq,
      List.append_cancel_left_eq]
  · simp [visible_passText]

/-- The first pass splits into the options if they are plain. -/
theorem words_passText_zero_of_plain {options : List Text}
    (plain : ∀ option ∈ options, Plain option) :
    words isBlank (passText options 0) = options := by
  rw [words_passText_zero, flatMap_words_of_plain plain]

theorem singleCharacterWords_iff_of_plain {options : List Text}
    (plain : ∀ option ∈ options, Plain option) :
    SingleCharacterWords options ↔ ∀ option ∈ options, option.length = 1 := by
  rw [singleCharacterWords_iff, words_passText_zero_of_plain plain]

theorem shellWords_mspGcc_iff (args : List Text) :
    shellWords (Command.mspGcc (readCommandLine args).gccCmdLine).text =
        some (mspGccVector args) ↔
      ∀ arg ∈ gccArguments args, Plain arg := by
  have programPlain : Plain mspGccProgram :=
    plain_of_bracketFree (by decide) (by decide) (by decide) (by decide)
  rw [Command.text, readCommandLine_gccCmdLine, mspGccVector,
    shellWords_fields_eq_some_iff]
  · have programWords : words isBlank mspGccProgram = [mspGccProgram] :=
      words_of_blankFree isBlank programPlain.nonempty
        (blankFree_of_plain programPlain).2
    have argumentWords :=
      words_append_flatMap_blank [] (gccArguments args)
    simp only [List.nil_append, words_nil] at argumentWords
    simp only [List.forall_mem_cons, programPlain, true_and, List.flatMap_cons,
      List.flatMap_nil, List.append_nil, programWords, argumentWords,
      List.singleton_append, List.cons.injEq]
    exact and_iff_left_of_imp flatMap_words_of_plain
  · simp [visible_flatMap_blank]

/-- The words that the driver itself puts on the command lines. -/
def ownWords : List Text :=
  [llvmGccProgram, llvmGccFlags, "-c".toList, llcProgram, llcFlags, "-o".toList]

theorem plain_of_mem_ownWords {word : Text} (member : word ∈ ownWords) :
    Plain word :=
  plain_of_all_isBracketFree (by decide +kernel) word member

/-- The passes of the compilation loop, by the index of their source. -/
theorem forall_commandLinePasses_iff (args : List Text)
    (holds : Text → Text → Text → Prop) :
    (∀ pass ∈ commandLinePasses args,
        holds pass.1.gnatOptions.join pass.1.llcOptions.join pass.2) ↔
      ∀ index file, (readCommandLine args).adaFiles[index]? = some file →
        holds (passText (readCommandLine args).gnatOptions index)
          (passText (readCommandLine args).llcOptions index) file := by
  constructor
  · intro each index file found
    obtain ⟨pass, passFound, rfl, gnatEq, llcEq⟩ := pass_of_adaFile found
    rw [← gnatEq, ← llcEq]
    exact each pass (List.mem_of_getElem? passFound)
  · intro each pass member
    obtain ⟨index, passFound⟩ := List.mem_iff_getElem?.mp member
    obtain ⟨fileEq, gnatEq, llcEq⟩ := passes_getElem? passFound
    rw [gnatEq, llcEq]
    exact each index pass.2 fileEq

/-- What the passes deliver, by the index of their source. -/
theorem argumentsDelivered_iff_passes (args : List Text) :
    ArgumentsDelivered args ↔
      (∀ arg ∈ gccArguments args, Plain arg) ∧
        (∀ index file, (readCommandLine args).adaFiles[index]? = some file →
          (∀ word ∈ llvmGccVector args file, Plain word) ∧
            words isBlank (passText (readCommandLine args).gnatOptions index) =
              (readCommandLine args).gnatOptions) ∧
        ∀ index file, (readCommandLine args).adaFiles[index]? = some file →
          (∀ word ∈ llcVector args file, Plain word) ∧
            words isBlank (passText (readCommandLine args).llcOptions index) =
              (readCommandLine args).llcOptions := by
  have llvmGcc := forall_commandLinePasses_iff args fun gnatText _ file =>
    shellWords (Command.llvmGcc gnatText file).text =
      some (llvmGccVector args file)
  have llc := forall_commandLinePasses_iff args fun _ llcText file =>
    shellWords (Command.llc llcText (adaToBaseName file ++ asmExtension)
        (adaToBaseName file ++ bcExtension)).text =
      some (llcVector args file)
  have llvmGccWords (index : Nat) (file : Text) :=
    shellWords_passText_eq_some_iff [llvmGccProgram, llvmGccFlags]
      (readCommandLine args).gnatOptions ["-c".toList, file] index
  have llcWords (index : Nat) (file : Text) :=
    shellWords_passText_eq_some_iff [llcProgram, llcFlags]
      (readCommandLine args).llcOptions ["-o".toList,
        adaToBaseName file ++ asmExtension,
        adaToBaseName file ++ bcExtension] index
  constructor
  · intro delivered
    refine ⟨(shellWords_mspGcc_iff args).mp delivered.mspGcc, ?_, ?_⟩
    · exact fun index file found =>
        (llvmGccWords index file).mp (llvmGcc.mp delivered.llvmGcc index file found)
    · exact fun index file found =>
        (llcWords index file).mp (llc.mp delivered.llc index file found)
  · rintro ⟨forwarded, gnatPasses, llcPasses⟩
    refine ⟨(shellWords_mspGcc_iff args).mpr forwarded, llvmGcc.mpr ?_, llc.mpr ?_⟩
    · exact fun index file found =>
        (llvmGccWords index file).mpr (gnatPasses index file found)
    · exact fun index file found =>
        (llcWords index file).mpr (llcPasses index file found)

/-- Every pass splits into plain options exactly when there is one pass or they
are single characters. -/
theorem words_passText_eq_options {options : List Text}
    (plain : ∀ option ∈ options, Plain option) {count index : Nat}
    (inRange : index < count)
    (single : count ≤ 1 ∨ ∀ option ∈ options, option.length = 1) :
    words isBlank (passText options index) = options := by
  rcases single with one | single
  · obtain rfl : index = 0 := by omega
    exact words_passText_zero_of_plain plain
  · rw [words_passText_eq ((singleCharacterWords_iff_of_plain plain).mpr single),
      words_passText_zero_of_plain plain]

/-- A second pass that splits into the options needs them to be single
characters. -/
theorem length_eq_one_of_words_passText {options : List Text}
    (plain : ∀ option ∈ options, Plain option)
    (second : words isBlank (passText options 1) = options) :
    ∀ option ∈ options, option.length = 1 := by
  rw [← singleCharacterWords_iff_of_plain plain, ← words_passText_one_eq_iff,
    second, words_passText_zero_of_plain plain]

/-- The Ada sources of a command line reach the C compiler as assembly files. -/
theorem asmFile_mem_gccArguments {args : List Text} {file : Text}
    (member : file ∈ (readCommandLine args).adaFiles) :
    adaToBaseName file ++ asmExtension ∈ gccArguments args := by
  rw [readCommandLine_adaFiles, List.mem_filter] at member
  refine List.mem_filterMap.mpr ⟨file, member.1, ?_⟩
  simp [forwardedArgument, of_decide_eq_true member.2]

theorem plain_llvmGccVector {args : List Text} {file : Text}
    (options : ∀ option ∈ (readCommandLine args).gnatOptions, Plain option)
    (source : Plain file) : ∀ word ∈ llvmGccVector args file, Plain word := by
  intro word member
  simp only [llvmGccVector, List.mem_append, List.mem_cons, List.not_mem_nil,
    or_false] at member
  rcases member with ((rfl | rfl) | option) | rfl | rfl
  · exact plain_of_mem_ownWords (by simp [ownWords])
  · exact plain_of_mem_ownWords (by simp [ownWords])
  · exact options word option
  · exact plain_of_mem_ownWords (by simp [ownWords])
  · exact source

theorem plain_llcVector {args : List Text} {file : Text}
    (options : ∀ option ∈ (readCommandLine args).llcOptions, Plain option)
    (asmFile : Plain (adaToBaseName file ++ asmExtension)) :
    ∀ word ∈ llcVector args file, Plain word := by
  intro word member
  simp only [llcVector, List.mem_append, List.mem_cons, List.not_mem_nil,
    or_false] at member
  rcases member with ((rfl | rfl) | option) | rfl | rfl | rfl
  · exact plain_of_mem_ownWords (by simp [ownWords])
  · exact plain_of_mem_ownWords (by simp [ownWords])
  · exact options word option
  · exact plain_of_mem_ownWords (by simp [ownWords])
  · exact asmFile
  · exact plain_bcFile asmFile

/-- Arguments that mean nothing to the shell give plain words in every pass. -/
theorem Deliverable.passes {args : List Text} (deliverable : Deliverable args) :
    (∀ arg ∈ gccArguments args, Plain arg) ∧
      (∀ index file, (readCommandLine args).adaFiles[index]? = some file →
        (∀ word ∈ llvmGccVector args file, Plain word) ∧
          words isBlank (passText (readCommandLine args).gnatOptions index) =
            (readCommandLine args).gnatOptions) ∧
      ∀ index file, (readCommandLine args).adaFiles[index]? = some file →
        (∀ word ∈ llcVector args file, Plain word) ∧
          words isBlank (passText (readCommandLine args).llcOptions index) =
            (readCommandLine args).llcOptions := by
  refine ⟨deliverable.forwarded, ?_, ?_⟩
  · intro index file found
    have inRange := (List.getElem?_eq_some_iff.mp found).1
    have source := List.mem_of_getElem? found
    have plain := deliverable.gnatPlain (List.ne_nil_of_mem source)
    refine ⟨?_, words_passText_eq_options plain inRange deliverable.gnatSingle⟩
    exact plain_llvmGccVector plain (deliverable.sources file source)
  · intro index file found
    have inRange := (List.getElem?_eq_some_iff.mp found).1
    have source := List.mem_of_getElem? found
    have plain := deliverable.llcPlain (List.ne_nil_of_mem source)
    refine ⟨?_, words_passText_eq_options plain inRange deliverable.llcSingle⟩
    exact plain_llcVector plain
      (deliverable.forwarded _ (asmFile_mem_gccArguments source))

/-- The passes of a deliverable command line have the words of its options. -/
theorem Deliverable.words_join {args : List Text}
    (deliverable : Deliverable args) {pass : LoopVariables × Text}
    (member : pass ∈ commandLinePasses args) :
    words isBlank pass.1.gnatOptions.join = (readCommandLine args).gnatOptions ∧
      words isBlank pass.1.llcOptions.join =
        (readCommandLine args).llcOptions := by
  obtain ⟨_, gnatPasses, llcPasses⟩ := deliverable.passes
  exact (forall_commandLinePasses_iff args fun gnatText llcText _ =>
    words isBlank gnatText = (readCommandLine args).gnatOptions ∧
      words isBlank llcText = (readCommandLine args).llcOptions).mpr
    (fun index file found =>
      ⟨(gnatPasses index file found).2, (llcPasses index file found).2⟩)
    pass member

/-- Every argument is delivered whole and unchanged exactly when the arguments
mean nothing to the shell and the options survive the compilation loop. -/
theorem argumentsDelivered_iff (args : List Text) :
    ArgumentsDelivered args ↔ Deliverable args := by
  rw [argumentsDelivered_iff_passes]
  constructor
  · rintro ⟨forwarded, gnatPasses, llcPasses⟩
    have sourcePlain : ∀ file ∈ (readCommandLine args).adaFiles, Plain file := by
      intro file member
      obtain ⟨index, found⟩ := List.mem_iff_getElem?.mp member
      exact (gnatPasses index file found).1 file (by simp [llvmGccVector])
    have optionPlain : (readCommandLine args).adaFiles ≠ [] →
        ∀ option ∈ (readCommandLine args).gnatOptions ++
          (readCommandLine args).llcOptions, Plain option := by
      intro someSource option member
      have found := List.getElem?_eq_getElem (List.length_pos_iff.mpr someSource)
      rcases List.mem_append.mp member with gnat | llc
      · exact (gnatPasses 0 _ found).1 option (by simp [llvmGccVector, gnat])
      · exact (llcPasses 0 _ found).1 option (by simp [llcVector, llc])
    refine ⟨forwarded, sourcePlain, optionPlain, ?_⟩
    by_cases several : (readCommandLine args).adaFiles.length ≤ 1
    · exact Or.inl several
    · have inRange : 1 < (readCommandLine args).adaFiles.length := by omega
      have found := List.getElem?_eq_getElem inRange
      have plain := optionPlain (List.length_pos_iff.mp (by omega))
      right
      intro option member
      rcases List.mem_append.mp member with gnat | llc
      · exact length_eq_one_of_words_passText
          (fun option member => plain option (List.mem_append_left _ member))
          (gnatPasses 1 _ found).2 option gnat
      · exact length_eq_one_of_words_passText
          (fun option member => plain option (List.mem_append_right _ member))
          (llcPasses 1 _ found).2 option llc
  · exact Deliverable.passes

/-- A definition with a blank in it reaches the C compiler in two pieces. -/
theorem not_argumentsDelivered_blank :
    ¬ ArgumentsDelivered ["-DGREETING=hello world".toList] := by
  intro delivered
  have received := delivered.mspGcc
  revert received
  decide +kernel

end Driver

end AdacHybridMsp430
