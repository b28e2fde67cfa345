import AdacHybridMsp430.AssemblyText

/-!
# Renaming the main procedure

The stream editor renames a substring, not a symbol.  This file splits the
lines of an assembly text into the symbols, the marks and the string data of
the program, leaving out the comments, and proves that post-processing renames
the main procedure only exactly when its name is part of no other symbol and of
no string, and when every marked line defines a label.
-/

namespace AdacHybridMsp430

namespace Assembly

open ListReplacement

/-- A maximal run of symbol characters, or another character. -/
inductive Chunk
  | run (characters : Text)
  | mark (character : Char)
deriving DecidableEq

def Chunk.characters : Chunk → Text
  | .run characters => characters
  | .mark character => [character]

def chunks : Text → List Chunk
  | [] => []
  | character :: rest =>
      if isSymbolCharacter character then
        match chunks rest with
        | .run characters :: others => .run (character :: characters) :: others
        | others => .run [character] :: others
      else
        .mark character :: chunks rest

/-- A chunk of the program: of its code, or of the data in a string. -/
inductive Token
  | code (chunk : Chunk)
  | data (chunk : Chunk)
deriving DecidableEq

def Token.chunk : Token → Chunk
  | .code chunk => chunk
  | .data chunk => chunk

abbrev Token.symbol (name : Text) : Token :=
  .code (.run name)

inductive Mode
  | code
  | data
  | escaped

/-- The tokens of a line; a semicolon outside strings starts a comment. -/
def scan : Mode → List Chunk → List Token
  | _, [] => []
  | .code, chunk :: rest =>
      if chunk = .mark ';' then []
      else if chunk = .mark '"' then .code chunk :: scan .data rest
      else .code chunk :: scan .code rest
  | .data, chunk :: rest =>
      if chunk = .mark '"' then .code chunk :: scan .code rest
      else if chunk = .mark '\\' then .data chunk :: scan .escaped rest
      else .data chunk :: scan .data rest
  | .escaped, chunk :: rest => .data chunk :: scan .data rest

def programTokens (line : Text) : List Token :=
  scan .code (chunks line)

example : programTokens "f: .asciz \"\\\"; x\" ; g".toList =
    [.symbol "f".toList, .code (.mark ':'), .code (.mark ' '),
      .symbol ".asciz".toList, .code (.mark ' '), .code (.mark '"'),
      .data (.mark '\\'), .data (.mark '"'), .data (.mark ';'),
      .data (.mark ' '), .data (.run "x".toList), .code (.mark '"'),
      .code (.mark ' ')] := by
  decide +kernel

/-- The program in a text, line by line. -/
def AssemblyText.program (source : AssemblyText) : List (List Token) :=
  source.lines.map programTokens

/-- The renaming of the symbol of the main procedure. -/
def renameSymbol (keepAdaMain : Bool) (token : Token) : Token :=
  if keepAdaMain = false ∧ token = .symbol adaMainSymbol then .symbol mainSymbol
  else token

/-- Post-processing changes the program by renaming the main procedure only,
makes no two symbols equal, appends constructor sections only, and registers
labels of the text only. -/
structure OnlyMainRenamed (keepAdaMain : Bool) (source : AssemblyText) :
    Prop where
  program :
    (source.postprocessed keepAdaMain).program.take source.lines.length =
      source.program.map fun tokens => tokens.map (renameSymbol keepAdaMain)
  distinct : ∀ first second, Token.symbol first ∈ source.program.flatten →
    Token.symbol second ∈ source.program.flatten →
      renamedText keepAdaMain first = renamedText keepAdaMain second →
        first = second
  appended : ∃ constructors : List Text,
    (source.postprocessed keepAdaMain).lines.drop source.lines.length =
      constructors.flatMap fun constructor =>
        ["\t.section\t.init_array,\"aw\"".toList, "\t.balign 2".toList,
          "\t.short\t".toList ++ constructor]
  constructors : ∀ entry ∈ source.appendedEntries keepAdaMain,
    entry ∈ (source.renamed keepAdaMain).labels

/-- The name of the main procedure occurs as a whole symbol only, its new name
is not taken, and every marked line defines a label. -/
structure MainApart (keepAdaMain : Bool) (source : AssemblyText) : Prop where
  whole : keepAdaMain = false → ∀ token ∈ source.program.flatten,
    adaMainSymbol <:+: token.chunk.characters → token = .symbol adaMainSymbol
  free : keepAdaMain = false → Token.symbol adaMainSymbol ∈ source.program.flatten →
    Token.symbol mainSymbol ∉ source.program.flatten
  definitions : ∀ line ∈ source.lines, elaborationMark <:+: line →
    labelOf line ≠ none

section Chunks

/-- A text is empty, starts with a character that is in no symbol, or starts
with a run of symbol characters. -/
theorem chunk_induction {motive : Text → Prop} (nil : motive [])
    (mark : ∀ character rest, isSymbolCharacter character = false →
      motive rest → motive (character :: rest))
    (run : ∀ characters rest, characters ≠ [] →
      (∀ character ∈ characters, isSymbolCharacter character = true) →
      (∀ character ∈ rest.head?, isSymbolCharacter character = false) →
      motive rest → motive (characters ++ rest))
    (text : Text) : motive text := by
  induction length : text.length using Nat.strong_induction_on
    generalizing text with
  | _ size ih =>
      cases text with
      | nil => exact nil
      | cons character rest =>
          cases symbol : isSymbolCharacter character with
          | false =>
              exact mark character rest symbol (ih _ (by simp [← length]) rest rfl)
          | true =>
              have split := List.takeWhile_append_dropWhile
                (p := isSymbolCharacter) (l := character :: rest)
              have stops := List.head?_dropWhile_not isSymbolCharacter
                (character :: rest)
              have nonempty : (character :: rest).takeWhile isSymbolCharacter ≠
                  [] := by
                simp [symbol]
              have shorter : ((character :: rest).dropWhile
                  isSymbolCharacter).length < size := by
                have positive := List.length_pos_iff.mpr nonempty
                have lengths := congrArg List.length split
                rw [List.length_append, length] at lengths
                omega
              rw [← split]
              refine run _ _ nonempty (fun other => List.mem_takeWhile_imp) ?_
                (ih _ shorter _ rfl)
              intro other head
              rw [Option.mem_def] at head
              simpa [head] using stops

theorem chunks_mark {character : Char}
    (noSymbol : isSymbolCharacter character = false) (rest : Text) :
    chunks (character :: rest) = .mark character :: chunks rest := by
  rw [chunks, if_neg (by simp [noSymbol])]

theorem chunks_run {characters rest : Text} (nonempty : characters ≠ [])
    (symbols : ∀ character ∈ characters, isSymbolCharacter character = true)
    (stops : ∀ character ∈ rest.head?, isSymbolCharacter character = false) :
    chunks (characters ++ rest) = .run characters :: chunks rest := by
  induction characters with
  | nil => exact absurd rfl nonempty
  | cons character others ih =>
      rw [List.cons_append, chunks, if_pos (symbols character (by simp))]
      cases others with
      | nil =>
          cases rest with
          | nil => rfl
          | cons next rest =>
              rw [List.nil_append, chunks_mark (stops next rfl)]
      | cons second others =>
          rw [ih (by simp) fun other member => symbols other (by simp [member])]

/-- Renaming in a text renames in its chunks. -/
def Chunk.renamed : Chunk → Chunk
  | .run characters => .run (renameAdaMain characters)
  | .mark character => .mark character

theorem chunks_renameAdaMain (text : Text) :
    chunks (renameAdaMain text) = (chunks text).map Chunk.renamed := by
  induction text using chunk_induction with
  | nil => rfl
  | mark character rest noSymbol ih =>
      rw [renameAdaMain, replaceAll_cons adaMainSymbol_ne_nil
        (not_mem_adaMainSymbol noSymbol), chunks_mark noSymbol,
        chunks_mark noSymbol, List.map_cons, ← ih]
      rfl
  | run characters rest nonempty symbols stops ih =>
      rw [renameAdaMain_append stops,
        chunks_run ((renameAdaMain_eq_nil_iff characters).not.mpr nonempty)
          (isSymbolCharacter_of_mem_renameAdaMain symbols)
          (by rwa [head?_renameAdaMain stops]),
        chunks_run nonempty symbols stops, List.map_cons, ih]
      rfl

end Chunks

section Tokens

def Token.renamed : Token → Token
  | .code chunk => .code chunk.renamed
  | .data chunk => .data chunk.renamed

theorem renamed_eq_mark_iff (chunk : Chunk) (character : Char) :
    chunk.renamed = .mark character ↔ chunk = .mark character := by
  cases chunk <;> simp [Chunk.renamed]

theorem scan_renamed (mode : Mode) (line : List Chunk) :
    scan mode (line.map Chunk.renamed) = (scan mode line).map Token.renamed := by
  induction line generalizing mode with
  | nil => rfl
  | cons chunk rest ih =>
      cases mode with
      | code =>
          simp only [List.map_cons, scan, renamed_eq_mark_iff, ih]
          split_ifs <;> rfl
      | data =>
          simp only [List.map_cons, scan, renamed_eq_mark_iff, ih]
          split_ifs <;> rfl
      | escaped =>
          simp only [List.map_cons, scan, ih]
          rfl

/-- Renaming in a line renames in its tokens. -/
theorem programTokens_renameAdaMain (line : Text) :
    programTokens (renameAdaMain line) =
      (programTokens line).map Token.renamed := by
  rw [programTokens, chunks_renameAdaMain, scan_renamed, programTokens]

theorem renameAdaMain_adaMainSymbol : renameAdaMain adaMainSymbol = mainSymbol := by
  decide

theorem renameAdaMain_eq_self_iff (text : Text) :
    renameAdaMain text = text ↔ ¬ adaMainSymbol <:+: text :=
  replaceAll_eq_self_iff adaMainSymbol_ne_nil (by decide) text

/-- A token is renamed as a symbol exactly when it contains the name of the
main procedure as a whole symbol or not at all. -/
theorem renamed_eq_renameSymbol_iff (token : Token) :
    token.renamed = renameSymbol false token ↔
      (adaMainSymbol <:+: token.chunk.characters →
        token = .symbol adaMainSymbol) := by
  by_cases main : token = .symbol adaMainSymbol
  · subst main
    simp [renameSymbol, Token.renamed, Chunk.renamed, renameAdaMain_adaMainSymbol]
  · have kept : token.renamed = token ↔
        ¬ adaMainSymbol <:+: token.chunk.characters := by
      have length : adaMainSymbol.length = 9 := by decide
      have short (character : Char) : ¬ adaMainSymbol <:+: [character] := by
        intro occurs
        have bound := occurs.length_le
        rw [length, List.length_singleton] at bound
        omega
      rcases token with ⟨name | character⟩ | ⟨name | character⟩
      · simpa [Token.renamed, Chunk.renamed, Token.chunk, Chunk.characters]
          using renameAdaMain_eq_self_iff name
      · simpa [Token.renamed, Chunk.renamed, Token.chunk, Chunk.characters]
          using short character
      · simpa [Token.renamed, Chunk.renamed, Token.chunk, Chunk.characters]
          using renameAdaMain_eq_self_iff name
      · simpa [Token.renamed, Chunk.renamed, Token.chunk, Chunk.characters]
          using short character
    simp [renameSymbol, main, kept]

end Tokens

section Postprocessing

variable (keepAdaMain : Bool) (source : AssemblyText)

theorem take_program_postprocessed :
    (source.postprocessed keepAdaMain).program.take source.lines.length =
      (source.renamed keepAdaMain).program := by
  have lengths : (source.renamed keepAdaMain).program.length =
      source.lines.length := by
    simp [AssemblyText.program, AssemblyText.renamed]
  rw [AssemblyText.program, AssemblyText.postprocessed, List.map_append,
    ← lengths]
  exact List.take_left

/-- The program is renamed as intended exactly when every token is. -/
theorem program_renamed_iff :
    (source.postprocessed keepAdaMain).program.take source.lines.length =
        source.program.map (fun tokens => tokens.map (renameSymbol keepAdaMain)) ↔
      (keepAdaMain = false → ∀ token ∈ source.program.flatten,
        adaMainSymbol <:+: token.chunk.characters →
          token = .symbol adaMainSymbol) := by
  rw [take_program_postprocessed]
  cases keepAdaMain with
  | true =>
      have kept : renameSymbol true = id := rfl
      simp [AssemblyText.renamed, kept]
  | false =>
      simp only [AssemblyText.program, AssemblyText.renamed, List.map_map,
        renamedText_false, List.map_inj_left, Function.comp_apply,
        programTokens_renameAdaMain, renamed_eq_renameSymbol_iff, forall_const,
        List.mem_flatten, List.mem_map]
      constructor
      · rintro renamed token ⟨_, ⟨line, lineMem, rfl⟩, tokenMem⟩
        exact renamed line lineMem token tokenMem
      · intro renamed line lineMem token tokenMem
        exact renamed token ⟨_, ⟨line, lineMem, rfl⟩, tokenMem⟩

/-- With whole occurrences only, no two symbols become equal exactly when the
new name of the main procedure is not taken. -/
theorem distinct_iff
    (whole : keepAdaMain = false → ∀ token ∈ source.program.flatten,
      adaMainSymbol <:+: token.chunk.characters → token = .symbol adaMainSymbol) :
    (∀ first second, Token.symbol first ∈ source.program.flatten →
      Token.symbol second ∈ source.program.flatten →
        renamedText keepAdaMain first = renamedText keepAdaMain second →
          first = second) ↔
      (keepAdaMain = false → Token.symbol adaMainSymbol ∈ source.program.flatten →
        Token.symbol mainSymbol ∉ source.program.flatten) := by
  cases keepAdaMain with
  | true => simp
  | false =>
      have renamed (name : Text) (member : Token.symbol name ∈ source.program.flatten) :
          renameAdaMain name = if name = adaMainSymbol then mainSymbol else name := by
        split_ifs with isMain
        · rw [isMain, renameAdaMain_adaMainSymbol]
        · rw [renameAdaMain_eq_self_iff]
          intro occurs
          simpa [isMain] using whole rfl _ member occurs
      have different : adaMainSymbol ≠ mainSymbol := by decide
      constructor
      · intro distinct _ adaMain main
        refine different (distinct _ _ adaMain main ?_)
        rw [renamedText_false, renamed _ adaMain, renamed _ main,
          if_pos rfl, if_neg different.symm]
      · intro free first second firstMem secondMem same
        have free := free rfl
        rw [renamedText_false, renamed _ firstMem, renamed _ secondMem] at same
        split_ifs at same with firstMain secondMain secondMain
        · rw [firstMain, secondMain]
        · exact absurd (same ▸ secondMem) (free (firstMain ▸ firstMem))
        · exact absurd (same ▸ firstMem) (free (secondMain ▸ secondMem))
        · exact same

/-- The entries are labels of the text exactly when the marked lines define
labels. -/
theorem constructors_iff :
    (∀ entry ∈ source.appendedEntries keepAdaMain,
        entry ∈ (source.renamed keepAdaMain).labels) ↔
      ∀ line ∈ source.lines, elaborationMark <:+: line → labelOf line ≠ none := by
  rw [appendedEntries_eq, addedEntries_eq]
  constructor
  · intro registered line member marked
    have renamedMarked :=
      (elaborationMark_infix_renamedText_iff keepAdaMain line).mpr marked
    have isLabel := registered (entryOf (renamedText keepAdaMain line))
      (List.mem_map_of_mem (List.mem_filter.mpr
        ⟨List.mem_map_of_mem member, decide_eq_true renamedMarked⟩))
    obtain ⟨nonempty, symbols⟩ := label_symbols isLabel
    have defined := (entryOf_eq_iff_labelOf_eq
      (colon_mem_of_elaborationMark renamedMarked) nonempty symbols).mp rfl
    intro undefined
    simp [labelOf_renamedText, undefined] at defined
  · intro definitions entry member
    obtain ⟨line, lineMem, rfl⟩ := List.mem_map.mp member
    obtain ⟨renamedMem, marked⟩ := List.mem_filter.mp lineMem
    have renamedMarked := of_decide_eq_true marked
    obtain ⟨original, originalMem, rfl⟩ := List.mem_map.mp renamedMem
    obtain ⟨label, defined⟩ := Option.ne_none_iff_exists'.mp
      (definitions original originalMem
        ((elaborationMark_infix_renamedText_iff keepAdaMain original).mp
          renamedMarked))
    have renamedDefined : labelOf (renamedText keepAdaMain original) =
        some (renamedText keepAdaMain label) := by
      rw [labelOf_renamedText, defined, Option.map_some]
    have isLabel := labelOf_eq_some_iff.mp renamedDefined
    rw [(entryOf_eq_iff_labelOf_eq (colon_mem_of_elaborationMark renamedMarked)
      isLabel.1 isLabel.2.1).mpr renamedDefined]
    exact List.mem_filterMap.mpr ⟨_, renamedMem, renamedDefined⟩

/-- Post-processing only renames the main procedure exactly when its name is
part of nothing else, its new name is not taken and every marked line defines a
label. -/
theorem onlyMainRenamed_iff :
    OnlyMainRenamed keepAdaMain source ↔ MainApart keepAdaMain source := by
  constructor
  · intro renamed
    have whole := (program_renamed_iff keepAdaMain source).mp renamed.program
    exact ⟨whole, (distinct_iff keepAdaMain source whole).mp renamed.distinct,
      (constructors_iff keepAdaMain source).mp renamed.constructors⟩
  · intro apart
    exact ⟨(program_renamed_iff keepAdaMain source).mpr apart.whole,
      (distinct_iff keepAdaMain source apart.whole).mpr apart.free,
      ⟨_, drop_postprocessed keepAdaMain source⟩,
      (constructors_iff keepAdaMain source).mpr apart.definitions⟩

end Postprocessing

/-- The text of a package that declares a procedure named like the main
procedure. -/
def nestedMain : AssemblyText where
  lines := ["\tcall\t#pkg__x_ada_main".toList]
  lineEnds := by decide

/-- The call of another procedure is redirected. -/
theorem not_onlyMainRenamed_nestedMain : ¬ OnlyMainRenamed false nestedMain := by
  intro renamed
  have program := renamed.program
  revert program
  decide +kernel

end Assembly

end AdacHybridMsp430
