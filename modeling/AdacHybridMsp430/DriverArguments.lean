import AdacHybridMsp430.DriverCommandLine

/-!
# What the argument loop collects

The argument loop skips `-x` together with its operand and sorts every other
argument by its kind.  This file gives each variable of the loop as a filter of
the arguments that are not skipped, and describes the command line on which a
single one of the Ada sources is left.
-/

namespace AdacHybridMsp430

namespace Driver

/-- The arguments that the loop classifies; the flag says that the next one is
the operand of `-x`. -/
def inspected : Bool → List Text → List Text
  | _, [] => []
  | true, _ :: args => inspected false args
  | false, arg :: args =>
      if arg = languageOption then inspected true args
      else arg :: inspected false args

def isAdaSource (arg : Text) : Bool :=
  argumentKind arg = .adaSource

def gnatOption? (arg : Text) : Option Text :=
  match argumentKind arg with
  | .gnatOption option => some option
  | _ => none

def llcOption? (arg : Text) : Option Text :=
  match argumentKind arg with
  | .llcOption option => some option
  | _ => none

def adacOption? (arg : Text) : Option Text :=
  match argumentKind arg with
  | .adacOption option => some option
  | _ => none

/-- What the C compiler gets for an argument, if anything. -/
def forwardedArgument (arg : Text) : Option Text :=
  match argumentKind arg with
  | .adaSource => some (adaToBaseName arg ++ asmExtension)
  | .other => some arg
  | _ => none

/-- The arguments that the driver means to hand to the C compiler. -/
def gccArguments (args : List Text) : List Text :=
  (inspected false args).filterMap forwardedArgument

/-- The arguments that the driver hands to the C compiler unchanged. -/
def ordinaryArguments (args : List Text) : List Text :=
  (inspected false args).filter fun arg => argumentKind arg = .other

theorem argumentKind_eq_language_iff (arg : Text) :
    argumentKind arg = .language ↔ arg = languageOption := by
  constructor
  · intro isLanguage
    by_contra different
    simp only [argumentKind, if_neg different] at isLanguage
    split_ifs at isLanguage
  · rintro rfl
    simp [argumentKind]

/-- Announcing the version changes nothing but the standard output. -/
theorem announceVersion_eq (line : CommandLine) (arg : Text) :
    ∃ stdout, announceVersion line arg = { line with stdout := stdout } := by
  unfold announceVersion
  split
  · exact ⟨_, rfl⟩
  · exact ⟨line.stdout, rfl⟩

/-- The argument loop from any state of its variables. -/
theorem foldl_readArgument (args : List Text) (line : CommandLine) :
    let last := args.foldl readArgument line
    let heeded := inspected line.ignoreNextOption args
    last.gnatOptions = line.gnatOptions ++ heeded.filterMap gnatOption? ∧
      last.llcOptions = line.llcOptions ++ heeded.filterMap llcOption? ∧
      last.adacOptions = line.adacOptions ++ heeded.filterMap adacOption? ∧
      last.adaFiles = line.adaFiles ++ heeded.filter isAdaSource ∧
      last.gccCmdLine = line.gccCmdLine ++
        (heeded.filterMap forwardedArgument).flatMap (' ' :: ·) := by
  induction args generalizing line with
  | nil => simp [inspected]
  | cons arg args ih =>
      have tail := ih (readArgument line arg)
      rw [List.foldl_cons]
      cases ignored : line.ignoreNextOption with
      | true =>
          simpa [readArgument, ignored, inspected] using tail
      | false =>
          obtain ⟨stdout, announced⟩ := announceVersion_eq line arg
          have notLanguage := (argumentKind_eq_language_iff arg).not
          cases kind : argumentKind arg with
          | language =>
              have isLanguage := (argumentKind_eq_language_iff arg).mp kind
              have skipped :
                  inspected false (arg :: args) = inspected true args := by
                rw [inspected, if_pos isLanguage]
              simpa [readArgument, ignored, announced, kind, skipped] using tail
          | _ =>
              simp only [kind, reduceCtorEq, not_false_eq_true, true_iff]
                at notLanguage
              simpa [readArgument, ignored, announced, kind, inspected,
                notLanguage, gnatOption?, llcOption?, adacOption?, isAdaSource,
                forwardedArgument] using tail

section CommandLineFields

variable (args : List Text)

theorem readCommandLine_gnatOptions :
    (readCommandLine args).gnatOptions =
      (inspected false args).filterMap gnatOption? := by
  simpa [readCommandLine] using (foldl_readArgument args {}).1

theorem readCommandLine_llcOptions :
    (readCommandLine args).llcOptions =
      (inspected false args).filterMap llcOption? := by
  simpa [readCommandLine] using (foldl_readArgument args {}).2.1

theorem readCommandLine_adacOptions :
    (readCommandLine args).adacOptions =
      (inspected false args).filterMap adacOption? := by
  simpa [readCommandLine] using (foldl_readArgument args {}).2.2.1

theorem readCommandLine_adaFiles :
    (readCommandLine args).adaFiles =
      (inspected false args).filter isAdaSource := by
  simpa [readCommandLine] using (foldl_readArgument args {}).2.2.2.1

/-- The command line for the C compiler is its arguments, each after a
blank. -/
theorem readCommandLine_gccCmdLine :
    (readCommandLine args).gccCmdLine =
      (gccArguments args).flatMap (' ' :: ·) := by
  simpa [readCommandLine, gccArguments] using (foldl_readArgument args {}).2.2.2.2

end CommandLineFields

/-- Drop the Ada sources of a command line, except the one that is as many
sources away as the optional counter says. -/
def retainSource : Option Nat → Bool → List Text → List Text
  | _, _, [] => []
  | counter, true, arg :: args => arg :: retainSource counter false args
  | counter, false, arg :: args =>
      if isAdaSource arg then
        match counter with
        | none => retainSource none false args
        | some 0 => arg :: retainSource none false args
        | some (counter + 1) => retainSource (some counter) false args
      else
        arg :: retainSource counter (arg = languageOption) args

/-- The command line on which the Ada source at an index is the only one. -/
def onlySource (index : Nat) (args : List Text) : List Text :=
  retainSource (some index) false args

theorem not_isAdaSource_languageOption :
    isAdaSource languageOption = false := by
  decide

/-- The same on the arguments that the loop classifies. -/
def retained : Option Nat → List Text → List Text
  | _, [] => []
  | counter, arg :: args =>
      if isAdaSource arg then
        match counter with
        | none => retained none args
        | some 0 => arg :: retained none args
        | some (counter + 1) => retained (some counter) args
      else
        arg :: retained counter args

theorem retainSource_of_not_source {arg : Text}
    (source : isAdaSource arg = false) (counter : Option Nat)
    (args : List Text) :
    retainSource counter false (arg :: args) =
      arg :: retainSource counter (arg = languageOption) args := by
  simp [retainSource, source]

theorem retained_of_not_source {arg : Text} (source : isAdaSource arg = false)
    (counter : Option Nat) (args : List Text) :
    retained counter (arg :: args) = arg :: retained counter args := by
  simp [retained, source]

/-- An Ada source is never taken for the option of the operand. -/
theorem inspected_source {arg : Text} (source : isAdaSource arg = true)
    (args : List Text) :
    inspected false (arg :: args) = arg :: inspected false args := by
  have notLanguage : arg ≠ languageOption := by
    rintro rfl
    rw [not_isAdaSource_languageOption] at source
    cases source
  rw [inspected, if_neg notLanguage]

theorem inspected_retainSource (counter : Option Nat) (ignore : Bool)
    (args : List Text) :
    inspected ignore (retainSource counter ignore args) =
      retained counter (inspected ignore args) := by
  induction args generalizing counter ignore with
  | nil => rfl
  | cons arg args ih =>
      cases ignore with
      | true =>
          rw [retainSource, inspected, inspected]
          exact ih counter false
      | false =>
          cases source : isAdaSource arg with
          | true =>
              rw [inspected_source source]
              rcases counter with _ | _ | counter
              · simpa only [retainSource, retained, if_pos source] using
                  ih none false
              · simp only [retainSource, retained, if_pos source,
                  inspected_source source, ih none false]
              · simpa only [retainSource, retained, if_pos source] using
                  ih (some counter) false
          | false =>
              rw [retainSource_of_not_source source]
              by_cases language : arg = languageOption
              · rw [inspected, if_pos language, inspected, if_pos language,
                  decide_eq_true language]
                exact ih counter true
              · rw [inspected, if_neg language, inspected, if_neg language,
                  decide_eq_false language, retained_of_not_source source,
                  ih counter false]

/-- Dropping sources leaves what any filter that ignores sources selects. -/
theorem filterMap_retained {β : Type*} {select : Text → Option β}
    (ignores : ∀ arg, isAdaSource arg = true → select arg = none)
    (counter : Option Nat) (args : List Text) :
    (retained counter args).filterMap select = args.filterMap select := by
  induction args generalizing counter with
  | nil => rfl
  | cons arg args ih =>
      cases source : isAdaSource arg with
      | true =>
          have dropped := ignores arg source
          rcases counter with _ | _ | counter <;>
            simp [retained, source, dropped, ih]
      | false =>
          rw [retained_of_not_source source, List.filterMap_cons,
            List.filterMap_cons, ih counter]

/-- The sources that are left after dropping the others. -/
theorem filter_retained (counter : Option Nat) (args : List Text) :
    (retained counter args).filter isAdaSource =
      (counter.bind fun index => (args.filter isAdaSource)[index]?).toList := by
  induction args generalizing counter with
  | nil => cases counter <;> rfl
  | cons arg args ih =>
      cases source : isAdaSource arg with
      | true =>
          rcases counter with _ | _ | counter <;> simp [retained, source, ih]
      | false =>
          simp [retained_of_not_source source, source, ih]

section OnlySource

variable (index : Nat) (args : List Text)

private theorem gnatOption?_of_isAdaSource (arg : Text)
    (source : isAdaSource arg = true) : gnatOption? arg = none := by
  simp [gnatOption?, of_decide_eq_true source]

private theorem llcOption?_of_isAdaSource (arg : Text)
    (source : isAdaSource arg = true) : llcOption? arg = none := by
  simp [llcOption?, of_decide_eq_true source]

private theorem adacOption?_of_isAdaSource (arg : Text)
    (source : isAdaSource arg = true) : adacOption? arg = none := by
  simp [adacOption?, of_decide_eq_true source]

theorem onlySource_gnatOptions :
    (readCommandLine (onlySource index args)).gnatOptions =
      (readCommandLine args).gnatOptions := by
  rw [readCommandLine_gnatOptions, readCommandLine_gnatOptions, onlySource,
    inspected_retainSource]
  exact filterMap_retained gnatOption?_of_isAdaSource _ _

theorem onlySource_llcOptions :
    (readCommandLine (onlySource index args)).llcOptions =
      (readCommandLine args).llcOptions := by
  rw [readCommandLine_llcOptions, readCommandLine_llcOptions, onlySource,
    inspected_retainSource]
  exact filterMap_retained llcOption?_of_isAdaSource _ _

theorem onlySource_adacOptions :
    (readCommandLine (onlySource index args)).adacOptions =
      (readCommandLine args).adacOptions := by
  rw [readCommandLine_adacOptions, readCommandLine_adacOptions, onlySource,
    inspected_retainSource]
  exact filterMap_retained adacOption?_of_isAdaSource _ _

theorem onlySource_adaFiles :
    (readCommandLine (onlySource index args)).adaFiles =
      ((readCommandLine args).adaFiles[index]?).toList := by
  rw [readCommandLine_adaFiles, readCommandLine_adaFiles, onlySource,
    inspected_retainSource]
  exact filter_retained (some index) _

end OnlySource

end Driver

end AdacHybridMsp430
