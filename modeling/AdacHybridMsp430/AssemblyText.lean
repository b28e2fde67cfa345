import AdacHybridMsp430.AssemblyPostprocessing
import Mathlib.Data.List.TakeWhile

/-!
# Assembly texts

An assembly text as a list of lines, the labels that its lines define, and the
entries of its `.init_array` sections.  Post-processing acts line by line: it
renames within the lines, which keeps their labels up to the renaming, and then
adds the lines of the constructor sections.
-/

namespace AdacHybridMsp430

namespace Assembly

open ListReplacement

/-- A text of newline-terminated lines. -/
structure AssemblyText where
  lines : List Text
  lineEnds : ∀ line ∈ lines, '\n' ∉ line ∧ '\r' ∉ line

/-- The contents of the file. -/
def AssemblyText.text (source : AssemblyText) : Text :=
  source.lines.flatMap (· ++ ['\n'])

def isSpace (character : Char) : Bool :=
  character = ' ' || character = '\t'

/-- The characters of symbols, directives, mnemonics and numbers. -/
def isSymbolCharacter (character : Char) : Bool :=
  character.isAlphanum || "_.$".toList.contains character

/-- The label that a line defines at its start. -/
def labelOf (line : Text) : Option Text :=
  let body := line.dropWhile isSpace
  if body.takeWhile isSymbolCharacter ≠ [] ∧
      (body.dropWhile isSymbolCharacter).head? = some ':' then
    some (body.takeWhile isSymbolCharacter)
  else
    none

def AssemblyText.labels (source : AssemblyText) : List Text :=
  source.lines.filterMap labelOf

def sectionDirective : Text := "\t.section\t".toList
def initArraySection : Text := "\t.section\t.init_array,".toList

/-- The operands of the `.short` directives in `.init_array` sections; the flag
says whether the lines start in such a section. -/
def initArrayEntries : Bool → List Text → List Text
  | _, [] => []
  | inInitArray, line :: lines =>
      if sectionDirective <+: line then
        initArrayEntries (initArraySection <+: line) lines
      else if inInitArray ∧ shortDirective <+: line then
        (line.drop shortDirective.length).dropWhile isSpace ::
          initArrayEntries inInitArray lines
      else
        initArrayEntries inInitArray lines

section Lines

theorem universalNewlines_of_not_mem {text : Text} (absent : '\r' ∉ text) :
    universalNewlines text = text := by
  induction text with
  | nil => rfl
  | cons character rest ih =>
      rw [List.mem_cons, not_or] at absent
      rw [universalNewlines, ih absent.2, if_neg (Ne.symm absent.1)]
      rintro remaining rfl
      exact absurd rfl absent.1

theorem readlines_append_newline {line : Text} (absent : '\n' ∉ line)
    (rest : Text) :
    readlines (line ++ '\n' :: rest) = (line ++ ['\n']) :: readlines rest := by
  induction line with
  | nil => simp [readlines]
  | cons character line ih =>
      rw [List.mem_cons, not_or] at absent
      simp [readlines, Ne.symm absent.1, ih absent.2]

/-- Reading a file gives back its lines. -/
theorem readlines_text (source : AssemblyText) :
    readlines (universalNewlines source.text) =
      source.lines.map (· ++ ['\n']) := by
  rw [universalNewlines_of_not_mem]
  · obtain ⟨lines, lineEnds⟩ := source
    simp only [AssemblyText.text]
    induction lines with
    | nil => rfl
    | cons line lines ih =>
        rw [List.flatMap_cons, List.append_assoc, List.singleton_append,
          readlines_append_newline (lineEnds line (by simp)).1,
          ih fun other member => lineEnds other (by simp [member]),
          List.map_cons]
  · intro member
    obtain ⟨line, lineMem, inLine⟩ := List.mem_flatMap.mp member
    simp [(source.lineEnds line lineMem).2] at inLine

theorem infix_append_newline_iff {query line : Text} (absent : '\n' ∉ query) :
    query <:+: line ++ ['\n'] ↔ query <:+: line := by
  rw [List.infix_concat_iff, List.suffix_concat_iff]
  constructor
  · rintro ((rfl | ⟨start, rfl, _⟩) | inside)
    · exact List.nil_infix
    · simp at absent
    · exact inside
  · exact Or.inr

theorem colon_mem_of_elaborationMark {line : Text}
    (marked : elaborationMark <:+: line) : ':' ∈ line :=
  marked.subset (by decide)

theorem beforeColon_append_newline {line : Text} (colon : ':' ∈ line) :
    beforeColon (line ++ ['\n']) = line.takeWhile (· != ':') := by
  rw [beforeColon, if_pos (List.mem_append_left _ colon), List.takeWhile_append,
    if_neg]
  intro whole
  have all := List.takeWhile_eq_self_iff.mp
    ((List.takeWhile_prefix _).eq_of_length whole) ':' colon
  simp at all

/-- The names that the driver finds in a text. -/
theorem contructorNames_text (source : AssemblyText) :
    contructorNames source.text =
      (source.lines.filter fun line => elaborationMark <:+: line).map
        fun line => line.takeWhile (· != ':') := by
  have marks (line : Text) : elaborationMark <:+: line ++ ['\n'] ↔
      elaborationMark <:+: line :=
    infix_append_newline_iff (by decide)
  rw [contructorNames, readlines_text, List.filter_map, List.map_map]
  simp only [Function.comp_def, marks]
  apply List.map_congr_left
  intro line member
  have marked := of_decide_eq_true (List.mem_filter.mp member).2
  exact beforeColon_append_newline (colon_mem_of_elaborationMark marked)

end Lines

section Labels

theorem isSpace_of_isSymbolCharacter {character : Char}
    (symbol : isSymbolCharacter character = true) : isSpace character = false := by
  by_contra space
  simp only [isSpace, Bool.not_eq_false, Bool.or_eq_true, decide_eq_true_eq]
    at space
  rcases space with rfl | rfl <;> exact absurd symbol (by decide)

/-- The parts of a line that decide about its label. -/
structure Parts (line margin symbol tail : Text) : Prop where
  whole : line = margin ++ (symbol ++ tail)
  spaces : ∀ character ∈ margin, isSpace character = true
  symbols : ∀ character ∈ symbol, isSymbolCharacter character = true
  stops : ∀ character ∈ tail.head?, isSymbolCharacter character = false
  noMargin : symbol = [] → ∀ character ∈ tail.head?, isSpace character = false

theorem exists_parts (line : Text) :
    ∃ margin symbol tail, Parts line margin symbol tail := by
  have notSpace := List.head?_dropWhile_not isSpace line
  have notSymbol := List.head?_dropWhile_not isSymbolCharacter
    (line.dropWhile isSpace)
  refine ⟨line.takeWhile isSpace,
    (line.dropWhile isSpace).takeWhile isSymbolCharacter,
    (line.dropWhile isSpace).dropWhile isSymbolCharacter, ?_,
    fun character => List.mem_takeWhile_imp,
    fun character => List.mem_takeWhile_imp, ?_, ?_⟩
  · rw [List.takeWhile_append_dropWhile, List.takeWhile_append_dropWhile]
  · intro character head
    rw [Option.mem_def] at head
    simpa [head] using notSymbol
  · intro empty character head
    have same := List.takeWhile_append_dropWhile (p := isSymbolCharacter)
      (l := line.dropWhile isSpace)
    rw [empty, List.nil_append] at same
    rw [same, Option.mem_def] at head
    simpa [head] using notSpace

theorem Parts.labelOf {line margin symbol tail : Text}
    (parts : Parts line margin symbol tail) :
    labelOf line =
      if symbol ≠ [] ∧ tail.head? = some ':' then some symbol else none := by
  have body : line.dropWhile isSpace = symbol ++ tail := by
    rw [parts.whole, List.dropWhile_append_of_pos parts.spaces]
    cases symbol with
    | nil =>
        cases tail with
        | nil => rfl
        | cons character rest =>
            exact List.dropWhile_cons_of_neg
              (by simp [parts.noMargin rfl character rfl])
    | cons first others =>
        exact List.dropWhile_cons_of_neg (by
          simp [isSpace_of_isSymbolCharacter (parts.symbols first (by simp))])
  have stopped : tail.takeWhile isSymbolCharacter = [] ∧
      tail.dropWhile isSymbolCharacter = tail := by
    cases tail with
    | nil => simp
    | cons character rest => simp [parts.stops character rfl]
  simp only [Assembly.labelOf, body, List.takeWhile_append_of_pos parts.symbols,
    List.dropWhile_append_of_pos parts.symbols, stopped, List.append_nil]

/-- A line defines a label when it starts, after a margin, with the symbol and
a colon. -/
theorem labelOf_eq_some_iff {line label : Text} :
    labelOf line = some label ↔
      label ≠ [] ∧ (∀ character ∈ label, isSymbolCharacter character = true) ∧
        ∃ margin rest, (∀ character ∈ margin, isSpace character = true) ∧
          line = margin ++ (label ++ ':' :: rest) := by
  constructor
  · intro defined
    obtain ⟨margin, symbol, tail, parts⟩ := exists_parts line
    rw [parts.labelOf, Option.ite_none_right_eq_some] at defined
    obtain ⟨⟨nonempty, colon⟩, same⟩ := defined
    obtain rfl := Option.some.inj same
    obtain ⟨rest, rfl⟩ := List.head?_eq_some_iff.mp colon
    exact ⟨nonempty, parts.symbols, margin, rest, parts.spaces, parts.whole⟩
  · rintro ⟨nonempty, symbols, margin, rest, spaces, whole⟩
    have parts : Parts line margin label (':' :: rest) :=
      ⟨whole, spaces, symbols, by simp; decide, fun empty => absurd empty nonempty⟩
    rw [parts.labelOf, if_pos ⟨nonempty, rfl⟩]

theorem isSymbolCharacter_of_mem_adaMainSymbol {character : Char}
    (member : character ∈ adaMainSymbol) : isSymbolCharacter character = true := by
  have all : adaMainSymbol.all isSymbolCharacter = true := by decide
  exact List.all_eq_true.mp all character member

theorem isSymbolCharacter_of_mem_mainSymbol {character : Char}
    (member : character ∈ mainSymbol) : isSymbolCharacter character = true := by
  have all : mainSymbol.all isSymbolCharacter = true := by decide
  exact List.all_eq_true.mp all character member

theorem not_mem_adaMainSymbol {character : Char}
    (noSymbol : isSymbolCharacter character = false) :
    character ∉ adaMainSymbol := fun member => by
  simp [isSymbolCharacter_of_mem_adaMainSymbol member] at noSymbol

theorem adaMainSymbol_ne_nil : adaMainSymbol ≠ [] := by
  decide

theorem head?_renameAdaMain {text : Text}
    (stops : ∀ character ∈ text.head?, isSymbolCharacter character = false) :
    (renameAdaMain text).head? = text.head? := by
  cases text with
  | nil => rfl
  | cons character rest =>
      rw [renameAdaMain, replaceAll_cons adaMainSymbol_ne_nil
        (not_mem_adaMainSymbol (stops character rfl))]
      rfl

theorem isSymbolCharacter_of_mem_renameAdaMain {text : Text}
    (symbols : ∀ character ∈ text, isSymbolCharacter character = true) :
    ∀ character ∈ renameAdaMain text, isSymbolCharacter character = true := by
  intro character member
  rcases mem_replaceAll adaMainSymbol_ne_nil member with new | old
  · exact isSymbolCharacter_of_mem_mainSymbol new
  · exact symbols character old

/-- A run of symbol characters is renamed separately from what follows. -/
theorem renameAdaMain_append {first second : Text}
    (stops : ∀ character ∈ second.head?, isSymbolCharacter character = false) :
    renameAdaMain (first ++ second) =
      renameAdaMain first ++ renameAdaMain second :=
  replaceAll_append adaMainSymbol_ne_nil fun character head =>
    not_mem_adaMainSymbol (stops character head)

theorem renameAdaMain_eq_nil_iff (text : Text) :
    renameAdaMain text = [] ↔ text = [] :=
  replaceAll_eq_nil_iff adaMainSymbol_ne_nil (by decide) text

/-- Renaming acts on the parts of a line. -/
theorem Parts.renamed {line margin symbol tail : Text}
    (parts : Parts line margin symbol tail) :
    Parts (renameAdaMain line) margin (renameAdaMain symbol)
      (renameAdaMain tail) := by
  have marginOutside : ∀ character ∈ margin, character ∉ adaMainSymbol := by
    intro character member
    apply not_mem_adaMainSymbol
    by_contra symbolic
    have noSpace := isSpace_of_isSymbolCharacter (Bool.not_eq_false _ ▸ symbolic)
    simp [parts.spaces character member] at noSpace
  have tailHead := head?_renameAdaMain parts.stops
  refine ⟨?_, parts.spaces, ?_, ?_, ?_⟩
  · rw [parts.whole, renameAdaMain,
      replaceAll_append_of_outside adaMainSymbol_ne_nil marginOutside,
      ← renameAdaMain, renameAdaMain_append parts.stops]
  · exact isSymbolCharacter_of_mem_renameAdaMain parts.symbols
  · rw [tailHead]
    exact parts.stops
  · rw [tailHead]
    intro empty
    exact parts.noMargin ((renameAdaMain_eq_nil_iff symbol).mp empty)

theorem labelOf_renameAdaMain (line : Text) :
    labelOf (renameAdaMain line) = (labelOf line).map renameAdaMain := by
  obtain ⟨margin, symbol, tail, parts⟩ := exists_parts line
  rw [parts.renamed.labelOf, parts.labelOf,
    head?_renameAdaMain parts.stops]
  simp only [ne_eq, renameAdaMain_eq_nil_iff]
  split <;> rfl

@[simp]
theorem renamedText_true : renamedText true = id :=
  rfl

@[simp]
theorem renamedText_false : renamedText false = renameAdaMain :=
  rfl

theorem labelOf_renamedText (keepAdaMain : Bool) (line : Text) :
    labelOf (renamedText keepAdaMain line) =
      (labelOf line).map (renamedText keepAdaMain) := by
  cases keepAdaMain with
  | true => simp
  | false => exact labelOf_renameAdaMain line

/-- Renaming does not touch the marks of constructor definitions. -/
theorem elaborationMark_infix_renamedText_iff (keepAdaMain : Bool)
    (line : Text) :
    elaborationMark <:+: renamedText keepAdaMain line ↔
      elaborationMark <:+: line := by
  cases keepAdaMain with
  | true => rfl
  | false =>
      have unaffected : Unaffected adaMainSymbol mainSymbol elaborationMark :=
        ⟨by decide +kernel, by decide +kernel, by decide +kernel,
          by decide +kernel⟩
      exact infix_replaceAll_iff adaMainSymbol_ne_nil unaffected line

end Labels

section Postprocessing

theorem not_mem_renamedText {character : Char} (newCharacter : character ∉ mainSymbol)
    (keepAdaMain : Bool) {line : Text} (absent : character ∉ line) :
    character ∉ renamedText keepAdaMain line := by
  cases keepAdaMain with
  | true => exact absent
  | false =>
      exact fun member =>
        (mem_replaceAll adaMainSymbol_ne_nil member).elim newCharacter absent

/-- The text after the stream editor. -/
def AssemblyText.renamed (keepAdaMain : Bool) (source : AssemblyText) :
    AssemblyText where
  lines := source.lines.map (renamedText keepAdaMain)
  lineEnds line member := by
    obtain ⟨old, oldMem, rfl⟩ := List.mem_map.mp member
    exact ⟨not_mem_renamedText (by decide) keepAdaMain (source.lineEnds old oldMem).1,
      not_mem_renamedText (by decide) keepAdaMain (source.lineEnds old oldMem).2⟩

theorem renameAdaMain_append_newline (line rest : Text) :
    renameAdaMain (line ++ '\n' :: rest) =
      renameAdaMain line ++ '\n' :: renameAdaMain rest :=
  replaceAll_append_cons adaMainSymbol_ne_nil (by decide) line rest

theorem text_renamed (keepAdaMain : Bool) (source : AssemblyText) :
    (source.renamed keepAdaMain).text = renamedText keepAdaMain source.text := by
  cases keepAdaMain with
  | true => simp [AssemblyText.renamed, AssemblyText.text]
  | false =>
      obtain ⟨lines, lineEnds⟩ := source
      simp only [AssemblyText.renamed, AssemblyText.text, renamedText_false]
      clear lineEnds
      induction lines with
      | nil => rfl
      | cons line lines ih =>
          rw [List.map_cons, List.flatMap_cons, List.flatMap_cons, ih,
            List.append_assoc, List.append_assoc, List.singleton_append,
            List.singleton_append, renameAdaMain_append_newline]

theorem labels_renamed (keepAdaMain : Bool) (source : AssemblyText) :
    (source.renamed keepAdaMain).labels =
      source.labels.map (renamedText keepAdaMain) := by
  simp only [AssemblyText.labels, AssemblyText.renamed, List.filterMap_map,
    List.map_filterMap]
  exact congrArg (List.filterMap · source.lines)
    (funext (labelOf_renamedText keepAdaMain))

/-- The names that the driver finds in the lines of a text. -/
def AssemblyText.constructors (source : AssemblyText) : List Text :=
  (source.lines.filter fun line => elaborationMark <:+: line).map
    fun line => line.takeWhile (· != ':')

/-- The lines that the driver adds to a text. -/
def AssemblyText.addedLines (source : AssemblyText) : List Text :=
  source.constructors.flatMap constructorLines

/-- The text that `postprocessAsm` leaves. -/
def AssemblyText.postprocessed (keepAdaMain : Bool) (source : AssemblyText) :
    AssemblyText where
  lines := (source.renamed keepAdaMain).lines ++
    (source.renamed keepAdaMain).addedLines
  lineEnds line member := by
    rcases List.mem_append.mp member with old | added
    · exact (source.renamed keepAdaMain).lineEnds line old
    · obtain ⟨constructor, constructorMem, lineMem⟩ := List.mem_flatMap.mp added
      obtain ⟨origin, originMem, rfl⟩ := List.mem_map.mp constructorMem
      have ends := (source.renamed keepAdaMain).lineEnds origin
        (List.mem_filter.mp originMem).1
      have newline : '\n' ∉ origin.takeWhile (· != ':') :=
        fun inside => ends.1 ((List.takeWhile_sublist _).mem inside)
      have carriage : '\r' ∉ origin.takeWhile (· != ':') :=
        fun inside => ends.2 ((List.takeWhile_sublist _).mem inside)
      simp only [constructorLines, List.mem_cons, List.not_mem_nil, or_false]
        at lineMem
      rcases lineMem with rfl | rfl | rfl
      · decide
      · decide
      · have directive : '\n' ∉ shortDirective ∧ '\r' ∉ shortDirective := by
          decide
        simp [newline, carriage, directive]

/-- Post-processing the file is post-processing its lines. -/
theorem text_postprocessed (keepAdaMain : Bool) (source : AssemblyText) :
    (source.postprocessed keepAdaMain).text =
      postprocessedText keepAdaMain source.text := by
  have sections (constructors : List Text) :
      (constructors.flatMap constructorLines).flatMap (· ++ ['\n']) =
        constructorSections constructors := by
    rw [List.flatMap_assoc]
    rfl
  rw [postprocessedText, ← text_renamed, contructorNames_text]
  simp only [AssemblyText.postprocessed, AssemblyText.text, List.flatMap_append]
  congr 1
  exact sections _

/-- What post-processing appends. -/
theorem drop_postprocessed (keepAdaMain : Bool) (source : AssemblyText) :
    (source.postprocessed keepAdaMain).lines.drop source.lines.length =
      (source.renamed keepAdaMain).addedLines := by
  have lengths : (source.renamed keepAdaMain).lines.length =
      source.lines.length := List.length_map _
  rw [AssemblyText.postprocessed, ← lengths, List.drop_left]

/-- The entries that the driver adds, as the assembler reads them. -/
def AssemblyText.addedEntries (source : AssemblyText) : List Text :=
  initArrayEntries false source.addedLines

/-- The entry that the assembler reads for a line of a constructor. -/
def entryOf (line : Text) : Text :=
  (line.takeWhile (· != ':')).dropWhile isSpace

/-- The driver adds an entry for every marked line. -/
theorem addedEntries_eq (source : AssemblyText) :
    source.addedEntries =
      (source.lines.filter fun line => elaborationMark <:+: line).map
        entryOf := by
  have entries (start : Bool) (names : List Text) :
      initArrayEntries start (names.flatMap constructorLines) =
        names.map fun name => name.dropWhile isSpace := by
    induction names generalizing start with
    | nil => rfl
    | cons name names ih =>
        have noSection : ¬ sectionDirective <+: shortDirective ++ name :=
          Clash.not_prefix_append (by decide) name
        rw [List.flatMap_cons, constructorLines, List.cons_append,
          List.cons_append, List.singleton_append, initArrayEntries,
          if_pos (by decide), initArrayEntries, if_neg (by decide),
          if_neg (by decide), initArrayEntries, if_neg noSection,
          if_pos ⟨by decide, List.prefix_append _ _⟩, ih, List.drop_left,
          List.map_cons]
  rw [AssemblyText.addedEntries, AssemblyText.addedLines, entries,
    AssemblyText.constructors, List.map_map]
  rfl

/-- The entries of the `.init_array` sections that post-processing appends. -/
def AssemblyText.appendedEntries (keepAdaMain : Bool) (source : AssemblyText) :
    List Text :=
  initArrayEntries false
    ((source.postprocessed keepAdaMain).lines.drop source.lines.length)

theorem appendedEntries_eq (keepAdaMain : Bool) (source : AssemblyText) :
    source.appendedEntries keepAdaMain =
      (source.renamed keepAdaMain).addedEntries := by
  rw [AssemblyText.appendedEntries, drop_postprocessed]
  rfl

theorem colon_not_mem_of_symbols {label : Text}
    (symbols : ∀ character ∈ label, isSymbolCharacter character = true) :
    ':' ∉ label := fun member =>
  absurd (symbols ':' member) (by decide)

theorem exists_line_of_mem_labels {source : AssemblyText} {label : Text}
    (member : label ∈ source.labels) :
    ∃ line ∈ source.lines, labelOf line = some label :=
  List.mem_filterMap.mp member

/-- A label is a nonempty sequence of symbol characters. -/
theorem label_symbols {source : AssemblyText} {label : Text}
    (member : label ∈ source.labels) :
    label ≠ [] ∧ ∀ character ∈ label, isSymbolCharacter character = true := by
  obtain ⟨line, _, defined⟩ := exists_line_of_mem_labels member
  have isLabel := labelOf_eq_some_iff.mp defined
  exact ⟨isLabel.1, isLabel.2.1⟩

/-- The entry for a line is a symbol exactly when it is the label of the
line. -/
theorem entryOf_eq_iff_labelOf_eq {line label : Text} (colon : ':' ∈ line)
    (nonempty : label ≠ [])
    (symbols : ∀ character ∈ label, isSymbolCharacter character = true) :
    entryOf line = label ↔ labelOf line = some label := by
  rw [labelOf_eq_some_iff]
  constructor
  · intro entry
    refine ⟨nonempty, symbols, (line.takeWhile (· != ':')).takeWhile isSpace, ?_⟩
    have head := List.head?_dropWhile_not (· != ':') line
    cases tail : line.dropWhile (· != ':') with
    | nil =>
        have outside := List.dropWhile_eq_nil_iff.mp tail ':' colon
        simp at outside
    | cons character rest =>
        obtain rfl : character = ':' := by simpa [tail] using head
        refine ⟨rest, fun character => List.mem_takeWhile_imp, ?_⟩
        rw [← tail, ← entry, ← List.append_assoc, entryOf,
          List.takeWhile_append_dropWhile, List.takeWhile_append_dropWhile]
  · rintro ⟨-, -, margin, rest, spaces, rfl⟩
    have marginFree : ':' ∉ margin := fun member =>
      absurd (spaces ':' member) (by decide)
    have before : ∀ character ∈ margin ++ label, (character != ':') = true := by
      intro character member
      have free : ':' ∉ margin ++ label := by
        simp [marginFree, colon_not_mem_of_symbols symbols]
      simpa using ne_of_mem_of_not_mem member free
    rw [entryOf, ← List.append_assoc, List.takeWhile_append_of_pos before,
      List.takeWhile_cons_of_neg (by simp), List.append_nil,
      List.dropWhile_append_of_pos spaces]
    obtain ⟨first, others, rfl⟩ := List.exists_cons_of_ne_nil nonempty
    exact List.dropWhile_cons_of_neg
      (by simp [isSpace_of_isSymbolCharacter (symbols first (by simp))])

end Postprocessing

end Assembly

end AdacHybridMsp430
