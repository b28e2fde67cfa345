import AdacHybridMsp430.AssemblyText
import AdacHybridMsp430.OrderedTables

/-!
# Exchange files

The sections of a `gprbuild` exchange file, as `msp430-elf-adabind` reads and
writes them.  A file without blank lines is read, and its table of sections is
read back from what is written for it; a blank line makes the reader fail.
-/

namespace AdacHybridMsp430

namespace Adabind

open Assembly OrderedTables

/-- `str.isspace` of a character. -/
def isspace (character : Char) : Bool :=
  let code := character.toNat
  (9 ≤ code && code ≤ 13) || (28 ≤ code && code ≤ 32) || code = 0x85 ||
    code = 0xa0 || code = 0x1680 || (0x2000 ≤ code && code ≤ 0x200a) ||
    code = 0x2028 || code = 0x2029 || code = 0x202f || code = 0x205f ||
    code = 0x3000

/-- `str.strip`. -/
def strip (line : Text) : Text :=
  (line.dropWhile isspace).rdropWhile isspace

structure BexchData where
  sections : Table Text (List Text) := []
  lastSection : Option Text := none

/-- There is no result when indexing the empty line raises an exception. -/
def isSectionHeader (line : Text) : Option Bool :=
  match line with
  | [] => none
  | first :: _ => some (first = '[' && line.getLast? = some ']')

def BexchData.beginNewSection (data : BexchData) (sectionName : Text) :
    BexchData where
  sections := assign sectionName [] data.sections
  lastSection := some sectionName

/-- The empty name counts as no section here. -/
def BexchData.appendLine (data : BexchData) (line : Text) : BexchData :=
  match data.lastSection with
  | none => data
  | some [] => data
  | some lastSection =>
      { data with
        sections := modifyAt lastSection (· ++ [line]) data.sections }

/-- `line[1:][:-1]`. -/
def withoutEnds (line : Text) : Text :=
  (line.drop 1).dropLast

/-- One pass of the loop of `read_bexch_file`. -/
def readLine (data : BexchData) (line : Text) : Option BexchData :=
  match isSectionHeader (strip line) with
  | none => none
  | some true => some (data.beginNewSection (withoutEnds (strip line)))
  | some false => some (data.appendLine (strip line))

def readLines : BexchData → List Text → Option BexchData
  | data, [] => some data
  | data, line :: lines =>
      match readLine data line with
      | none => none
      | some data => readLines data lines

/-- The lines of a file that is opened in text mode. -/
def fileLines (content : Text) : List Text :=
  readlines (universalNewlines content)

def readBexchFile (content : Text) : Option BexchData :=
  readLines {} (fileLines content)

def headerLine (sectionName : Text) : Text :=
  '[' :: (sectionName ++ [']', '\n'])

def entryLine (entry : Text) : Text :=
  entry ++ ['\n']

/-- The lines that are written for a section. -/
def sectionLines (entry : Text × List Text) : List Text :=
  headerLine entry.1 :: entry.2.map entryLine

/-- The text that `write_bexch_file` writes. -/
def writeBexchFile (data : BexchData) : Text :=
  (data.sections.flatMap sectionLines).flatten

/-- Reading returns a table, and the table is read back from what is written
for it. -/
def RoundTrips (content : Text) : Prop :=
  ∃ data, readBexchFile content = some data ∧
    ∃ again, readBexchFile (writeBexchFile data) = some again ∧
      again.sections = data.sections

/-- A line with nothing but white space. -/
def Blank (line : Text) : Prop :=
  ∀ character ∈ line, isspace character = true

section Stripping

/-- A nonempty text without white space at its ends. -/
structure Trimmed (text : Text) : Prop where
  nonempty : text ≠ []
  head : ∀ character, text.head? = some character → isspace character = false
  last : ∀ character, text.getLast? = some character →
    isspace character = false

theorem strip_eq_nil_iff {line : Text} : strip line = [] ↔ Blank line := by
  rw [strip, List.rdropWhile_eq_nil_iff, Blank]
  constructor
  · intro rest character member
    rw [← List.takeWhile_append_dropWhile (p := isspace) (l := line)] at member
    rcases List.mem_append.mp member with early | late
    · exact List.mem_takeWhile_imp early
    · exact rest character late
  · intro all character member
    exact all character ((List.dropWhile_suffix _).subset member)

theorem trimmed_strip {line : Text} (nonempty : strip line ≠ []) :
    Trimmed (strip line) where
  nonempty := nonempty
  head := by
    intro character head
    obtain ⟨rest, whole⟩ :=
      List.rdropWhile_prefix isspace (line.dropWhile isspace)
    have first := List.head?_dropWhile_not isspace line
    rw [← whole, List.head?_append, show List.rdropWhile isspace
      (line.dropWhile isspace) = strip line from rfl, head] at first
    exact first
  last := by
    intro character last
    have spaceless := List.rdropWhile_last_not isspace _ nonempty
    rw [List.getLast?_eq_getLast_of_ne_nil nonempty] at last
    rw [← Option.some.inj last]
    exact Bool.eq_false_of_not_eq_true spaceless

/-- White space at the end is stripped. -/
theorem strip_concat (text : Text) {character : Char}
    (space : isspace character = true) :
    strip (text ++ [character]) = strip text := by
  rw [strip, strip, List.dropWhile_append]
  split
  · rename_i empty
    rw [List.isEmpty_iff.mp empty, List.dropWhile_cons_of_pos space]
    rfl
  · exact List.rdropWhile_concat_pos _ _ _ space

theorem strip_of_trimmed {text : Text} (trimmed : Trimmed text) :
    strip text = text := by
  obtain ⟨nonempty, head, last⟩ := trimmed
  have front : text.dropWhile isspace = text := by
    cases text with
    | nil => rfl
    | cons first rest =>
        rw [List.dropWhile_cons_of_neg]
        simp [head first rfl]
  rw [strip, front, List.rdropWhile_eq_self_iff]
  intro someLast
  rw [last _ (List.getLast?_eq_getLast_of_ne_nil someLast)]
  decide

theorem mem_of_mem_strip {line : Text} {character : Char}
    (member : character ∈ strip line) : character ∈ line :=
  (List.dropWhile_suffix _).subset
    ((List.rdropWhile_prefix isspace _).subset member)

end Stripping

section Lines

/-- A text without line ends. -/
def OneLine (text : Text) : Prop :=
  '\n' ∉ text ∧ '\r' ∉ text

theorem return_not_mem_universalNewlines (content : Text) :
    '\r' ∉ universalNewlines content := by
  induction content using universalNewlines.induct with
  | case1 => simp [universalNewlines]
  | case2 rest ih => simp [universalNewlines, ih]
  | case3 character rest shape ih =>
      rw [universalNewlines]
      · by_cases isReturn : character = '\r'
        · simp [isReturn, ih]
        · simp [isReturn, ih, Ne.symm isReturn]
      · exact shape

theorem flatten_readlines (text : Text) : (readlines text).flatten = text := by
  induction text with
  | nil => rfl
  | cons character rest ih =>
      rw [readlines]
      split
      · rename_i newline
        rw [List.flatten_cons, ih, newline]
        rfl
      · split
        · rename_i empty
          rw [← ih, empty]
          rfl
        · rename_i line lines split
          rw [← ih, split]
          rfl

/-- A line is free of newlines, or ends with its only newline. -/
theorem exists_body {text line : Text} (member : line ∈ readlines text) :
    ∃ body, '\n' ∉ body ∧ (line = body ∨ line = body ++ ['\n']) := by
  induction text generalizing line with
  | nil => simp [readlines] at member
  | cons character rest ih =>
      rw [readlines] at member
      split at member
      · rcases List.mem_cons.mp member with rfl | later
        · exact ⟨[], by simp, Or.inr rfl⟩
        · exact ih later
      · rename_i different
        split at member
        · rw [List.mem_singleton.mp member]
          exact ⟨[character], by simpa using Ne.symm different, Or.inl rfl⟩
        · rename_i first lines split
          rw [split] at ih
          rcases List.mem_cons.mp member with rfl | later
          · have isFirst : first ∈ first :: lines := List.mem_cons_self
            obtain ⟨body, absent, shape⟩ := ih isFirst
            refine ⟨character :: body, by simp [Ne.symm different, absent], ?_⟩
            rcases shape with rfl | rfl
            · exact Or.inl rfl
            · exact Or.inr rfl
          · exact ih (by simp [later])

theorem newline_not_mem_strip {text line : Text}
    (member : line ∈ readlines text) : '\n' ∉ strip line := by
  obtain ⟨body, absent, rfl | rfl⟩ := exists_body member
  · exact fun inLine => absent (mem_of_mem_strip inLine)
  · rw [strip_concat body (by decide)]
    exact fun inLine => absent (mem_of_mem_strip inLine)

theorem oneLine_strip {content line : Text}
    (member : line ∈ fileLines content) : OneLine (strip line) :=
  ⟨newline_not_mem_strip member, fun inLine =>
    return_not_mem_universalNewlines content (by
      rw [← flatten_readlines (universalNewlines content)]
      exact List.mem_flatten.mpr ⟨line, member, mem_of_mem_strip inLine⟩)⟩

end Lines

section Reading

/-- The reader fails exactly where a line is blank. -/
theorem readLine_eq_none_iff (data : BexchData) (line : Text) :
    readLine data line = none ↔ Blank line := by
  rw [← strip_eq_nil_iff, readLine]
  cases strip line with
  | nil => simp [isSectionHeader]
  | cons first rest =>
      simp only [isSectionHeader, reduceCtorEq, iff_false]
      split <;> simp_all

theorem readLines_ne_none_iff (data : BexchData) (lines : List Text) :
    readLines data lines ≠ none ↔ ∀ line ∈ lines, ¬ Blank line := by
  induction lines generalizing data with
  | nil => simp [readLines]
  | cons line lines ih =>
      rw [readLines, List.forall_mem_cons, ← readLine_eq_none_iff data line]
      cases readLine data line with
      | none => simp
      | some next => simp [ih next]

theorem readLines_append (data : BexchData) (first second : List Text) :
    readLines data (first ++ second) =
      (readLines data first).bind (readLines · second) := by
  induction first generalizing data with
  | nil => rfl
  | cons line first ih =>
      rw [List.cons_append, readLines, readLines]
      cases readLine data line with
      | none => rfl
      | some next => exact ih next

/-- An entry of a section, as the reader stores it. -/
structure Entry (entry : Text) : Prop where
  trimmed : Trimmed entry
  notHeader : isSectionHeader entry = some false
  oneLine : OneLine entry

/-- A section of a table that has been read. -/
structure Section (entry : Text × List Text) : Prop where
  oneLine : OneLine entry.1
  unnamed : entry.1 = [] → entry.2 = []
  entries : ∀ line ∈ entry.2, Entry line

/-- A table that the reader may return. -/
structure Readable (sections : Table Text (List Text)) : Prop where
  distinct : (keys sections).Nodup
  sections : ∀ entry ∈ sections, Section entry

theorem oneLine_withoutEnds {line : Text} (oneLine : OneLine line) :
    OneLine (withoutEnds line) := by
  have subset : ∀ character ∈ withoutEnds line, character ∈ line :=
    fun _ member => List.mem_of_mem_drop (List.mem_of_mem_dropLast member)
  exact ⟨fun member => oneLine.1 (subset _ member),
    fun member => oneLine.2 (subset _ member)⟩

theorem Readable.beginNewSection {data : BexchData} {name : Text}
    (readable : Readable data.sections) (oneLine : OneLine name) :
    Readable (data.beginNewSection name).sections where
  distinct := nodup_keys_assign name [] readable.distinct
  sections := by
    intro entry member
    rcases mem_assign member with rfl | old
    · exact ⟨oneLine, fun _ => rfl, by simp⟩
    · exact readable.sections entry old

theorem Readable.appendLine {data : BexchData} {line : Text}
    (readable : Readable data.sections) (entry : Entry line) :
    Readable (data.appendLine line).sections := by
  unfold BexchData.appendLine
  split
  · exact readable
  · exact readable
  · rename_i name named _
    refine ⟨by simpa using readable.distinct, ?_⟩
    intro changed member
    obtain ⟨old, oldMem, rfl⟩ := List.mem_map.mp member
    have section' := readable.sections old oldMem
    split
    · rename_i same
      refine ⟨section'.oneLine, ?_, ?_⟩
      · intro unnamed
        exact absurd (same.symm.trans unnamed) named
      · intro other otherMem
        rcases List.mem_append.mp otherMem with before | added
        · exact section'.entries other before
        · rw [List.mem_singleton.mp added]
          exact entry
    · exact section'

theorem Readable.readLine {data next : BexchData} {line : Text}
    (readable : Readable data.sections) (oneLine : OneLine (strip line))
    (read : readLine data line = some next) : Readable next.sections := by
  unfold Adabind.readLine at read
  split at read
  · cases read
  · rw [← Option.some.inj read]
    exact readable.beginNewSection (oneLine_withoutEnds oneLine)
  · rename_i notHeader
    rw [← Option.some.inj read]
    have nonempty : strip line ≠ [] := by
      intro empty
      rw [empty] at notHeader
      cases notHeader
    exact readable.appendLine ⟨trimmed_strip nonempty, notHeader, oneLine⟩

theorem Readable.readLines {data last : BexchData} {lines : List Text}
    (readable : Readable data.sections)
    (oneLine : ∀ line ∈ lines, OneLine (strip line))
    (read : readLines data lines = some last) : Readable last.sections := by
  induction lines generalizing data with
  | nil => exact Option.some.inj read ▸ readable
  | cons line lines ih =>
      rw [Adabind.readLines] at read
      rw [List.forall_mem_cons] at oneLine
      cases first : Adabind.readLine data line with
      | none => simp [first] at read
      | some next =>
          rw [first] at read
          exact ih (readable.readLine oneLine.1 first) oneLine.2 read

end Reading

section Writing

theorem readLine_headerLine (data : BexchData) (name : Text) :
    readLine data (headerLine name) = some (data.beginNewSection name) := by
  have trimmed : Trimmed ('[' :: (name ++ [']'])) := by
    refine ⟨by simp, ?_, ?_⟩
    · intro character head
      obtain rfl : '[' = character := Option.some.inj head
      decide
    · intro character last
      rw [← List.cons_append, List.getLast?_concat] at last
      obtain rfl : ']' = character := Option.some.inj last
      decide
  have stripped : strip (headerLine name) = '[' :: (name ++ [']']) := by
    have split : headerLine name = '[' :: (name ++ [']']) ++ ['\n'] := by
      simp [headerLine]
    rw [split, strip_concat _ (by decide), strip_of_trimmed trimmed]
  have header : isSectionHeader ('[' :: (name ++ [']'])) = some true := by
    rw [isSectionHeader, ← List.cons_append, List.getLast?_concat]
    rfl
  have inner : withoutEnds ('[' :: (name ++ [']'])) = name := by
    simp [withoutEnds]
  rw [readLine, stripped, header, inner]

theorem readLine_entryLine (data : BexchData) {entry : Text}
    (isEntry : Entry entry) :
    readLine data (entryLine entry) = some (data.appendLine entry) := by
  rw [readLine, entryLine, strip_concat _ (by decide),
    strip_of_trimmed isEntry.trimmed, isEntry.notHeader]

/-- An entry is appended to the section that was begun last. -/
theorem appendLine_concat {sections : Table Text (List Text)} {name : Text}
    (absent : name ∉ keys sections) (named : name ≠ []) (before : List Text)
    (line : Text) :
    BexchData.appendLine ⟨sections ++ [(name, before)], some name⟩ line =
      ⟨sections ++ [(name, before ++ [line])], some name⟩ := by
  cases name with
  | nil => exact absurd rfl named
  | cons first rest =>
      exact congrArg (BexchData.mk · _) (modifyAt_concat _ absent before)

theorem readLines_entries {sections : Table Text (List Text)} {name : Text}
    (absent : name ∉ keys sections) (named : name ≠ [])
    {before entries : List Text} (areEntries : ∀ line ∈ entries, Entry line) :
    readLines ⟨sections ++ [(name, before)], some name⟩
        (entries.map entryLine) =
      some ⟨sections ++ [(name, before ++ entries)], some name⟩ := by
  induction entries generalizing before with
  | nil => simp [readLines]
  | cons entry entries ih =>
      rw [List.forall_mem_cons] at areEntries
      rw [List.map_cons, readLines, readLine_entryLine _ areEntries.1,
        appendLine_concat absent named,
        show before ++ entry :: entries = before ++ [entry] ++ entries by simp]
      exact ih areEntries.2

/-- A new section goes to the end. -/
theorem beginNewSection_of_not_mem {data : BexchData} {name : Text}
    (absent : name ∉ keys data.sections) :
    data.beginNewSection name = ⟨data.sections ++ [(name, [])], some name⟩ := by
  rw [BexchData.beginNewSection, assign_of_not_mem [] absent]

theorem readLines_sectionLines {data : BexchData} {entry : Text × List Text}
    (absent : entry.1 ∉ keys data.sections) (isSection : Section entry) :
    readLines data (sectionLines entry) =
      some ⟨data.sections ++ [entry], some entry.1⟩ := by
  obtain ⟨name, entries⟩ := entry
  rw [sectionLines, readLines, readLine_headerLine,
    beginNewSection_of_not_mem absent]
  by_cases unnamed : name = []
  · have none : entries = [] := isSection.unnamed unnamed
    rw [none]
    rfl
  · exact readLines_entries absent unnamed isSection.entries

/-- The sections are read back in their order. -/
theorem readLines_sections (data : BexchData)
    {sections : Table Text (List Text)}
    (readable : Readable (data.sections ++ sections)) :
    ∃ last, readLines data (sections.flatMap sectionLines) = some last ∧
      last.sections = data.sections ++ sections := by
  induction sections generalizing data with
  | nil => exact ⟨data, rfl, by simp⟩
  | cons entry sections ih =>
      have absent : entry.1 ∉ keys data.sections := by
        have distinct := readable.distinct
        rw [keys, List.map_append, List.map_cons] at distinct
        intro member
        exact List.disjoint_of_nodup_append distinct member (by simp)
      have isSection := readable.sections entry (by simp)
      rw [List.flatMap_cons, readLines_append,
        readLines_sectionLines absent isSection, Option.bind_some]
      have shifted : data.sections ++ entry :: sections =
          data.sections ++ [entry] ++ sections := by
        simp
      rw [shifted] at readable ⊢
      exact ih _ readable

/-- The lines of what is written are the lines of the sections. -/
theorem fileLines_writeBexchFile {data : BexchData}
    (readable : Readable data.sections) :
    fileLines (writeBexchFile data) = data.sections.flatMap sectionLines := by
  have shape : ∀ line ∈ data.sections.flatMap sectionLines,
      ∃ body, line = body ++ ['\n'] ∧ OneLine body := by
    intro line member
    obtain ⟨entry, entryMem, lineMem⟩ := List.mem_flatMap.mp member
    have isSection := readable.sections entry entryMem
    rcases List.mem_cons.mp lineMem with rfl | inEntries
    · refine ⟨'[' :: (entry.1 ++ [']']), by simp [headerLine], ?_⟩
      have oneLine := isSection.oneLine
      simpa [OneLine] using oneLine
    · obtain ⟨body, bodyMem, rfl⟩ := List.mem_map.mp inEntries
      exact ⟨body, rfl, (isSection.entries body bodyMem).oneLine⟩
  rw [fileLines, writeBexchFile]
  generalize data.sections.flatMap sectionLines = lines at shape
  rw [universalNewlines_of_not_mem]
  · induction lines with
    | nil => rfl
    | cons line lines ih =>
        rw [List.forall_mem_cons] at shape
        obtain ⟨⟨body, rfl, oneLine⟩, rest⟩ := shape
        rw [List.flatten_cons, List.append_assoc, List.singleton_append,
          readlines_append_newline oneLine.1, ih rest]
  · intro member
    obtain ⟨line, lineMem, inLine⟩ := List.mem_flatten.mp member
    obtain ⟨body, rfl, oneLine⟩ := shape line lineMem
    simp [oneLine.2] at inLine

/-- A table that may have been read is read back from what is written. -/
theorem readBexchFile_writeBexchFile (data : BexchData)
    (readable : Readable data.sections) :
    ∃ again, readBexchFile (writeBexchFile data) = some again ∧
      again.sections = data.sections := by
  rw [readBexchFile, fileLines_writeBexchFile readable]
  obtain ⟨last, read, sections⟩ := readLines_sections {}
    (show Readable ([] ++ data.sections) from readable)
  exact ⟨last, read, by simpa using sections⟩

theorem readable_readBexchFile {content : Text} {data : BexchData}
    (read : readBexchFile content = some data) : Readable data.sections := by
  have empty : Readable ({} : BexchData).sections :=
    ⟨List.nodup_nil, by simp⟩
  exact empty.readLines (fun line member => oneLine_strip member) read

end Writing

/-- The reader succeeds, and its table is read back, just for the files without
blank lines. -/
theorem roundTrips_iff (content : Text) :
    RoundTrips content ↔ ∀ line ∈ fileLines content, ¬ Blank line := by
  rw [← readLines_ne_none_iff {}]
  constructor
  · rintro ⟨data, read, _⟩
    rw [show readLines {} (fileLines content) = some data from read]
    simp
  · intro succeeds
    obtain ⟨data, read⟩ := Option.ne_none_iff_exists'.mp succeeds
    exact ⟨data, read,
      readBexchFile_writeBexchFile data (readable_readBexchFile read)⟩

/-- An empty line makes the reader fail. -/
theorem not_roundTrips_emptyLine :
    ¬ RoundTrips "[PROJECT FILES]\n\nmain.adb\n".toList := by
  rintro ⟨data, read, _⟩
  have fails : readBexchFile "[PROJECT FILES]\n\nmain.adb\n".toList = none := by
    decide +kernel
  rw [fails] at read
  cases read

end Adabind

end AdacHybridMsp430
