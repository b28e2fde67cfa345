import AdacHybridMsp430.ExchangeFiles

/-!
# Mapping dependencies to objects

What `msp430-elf-adabind` does with an exchange file: the project files are
kept, every dependency is mapped to its object file, and a file without one of
these sections is left alone.
-/

namespace AdacHybridMsp430

namespace Adabind

open Assembly OrderedTables PathNames

def generatedObjectFile : Text := "GENERATED OBJECT FILE".toList
def projectFiles : Text := "PROJECT FILES".toList
def boundObjectFiles : Text := "BOUND OBJECT FILES".toList
def dependencyFiles : Text := "DEPENDENCY FILES".toList
def generatedSourceFiles : Text := "GENERATED SOURCE FILES".toList
def resultingOptions : Text := "RESULTING OPTIONS".toList
def runPathOption : Text := "RUN PATH OPTION".toList

def objectExtension : Text := ".o".toList

def objectFile (entry : Text) : Text :=
  (splitext entry).1 ++ objectExtension

/-- The data that is written.  There is none when a section is missing and the
index expression raises an exception. -/
def outputData (data : BexchData) : Option BexchData :=
  let output : BexchData := {}
  let output := output.beginNewSection generatedObjectFile
  let output := output.beginNewSection projectFiles
  match lookup projectFiles data.sections with
  | none => none
  | some entries =>
      let output := entries.foldl BexchData.appendLine output
      let output := output.beginNewSection boundObjectFiles
      match lookup dependencyFiles data.sections with
      | none => none
      | some entries =>
          let output := entries.foldl
            (fun output entry => output.appendLine (objectFile entry)) output
          let output := output.beginNewSection generatedSourceFiles
          let output := output.beginNewSection resultingOptions
          let output := output.beginNewSection runPathOption
          some output

/-- The files of the system, by their paths. -/
abbrev Files := Text → Option Text

/-- The script on its arguments, with the files that it leaves.  It does not
complete if the usage is wrong or an exception is raised. -/
def adabind (args : List Text) (files : Files) : Bool × Files :=
  match args with
  | [path] =>
      match files path with
      | none => (false, files)
      | some content =>
          match (readBexchFile content).bind outputData with
          | none => (false, files)
          | some output =>
              (true, Function.update files path (some (writeBexchFile output)))
  | _ => (false, files)

/-- The name of the section that a line begins. -/
def headerName (line : Text) : Option Text :=
  if isSectionHeader (strip line) = some true then
    some (withoutEnds (strip line))
  else
    none

/-- The entries of the first section of a name: the lines between its header
and the next one. -/
def sectionEntries (name : Text) : List Text → Option (List Text)
  | [] => none
  | line :: lines =>
      if headerName line = some name then
        some ((lines.takeWhile fun line => headerName line = none).map strip)
      else
        sectionEntries name lines

/-- An exchange file without blank lines and repeated headers. -/
structure Regular (content : Text) : Prop where
  noBlank : ∀ line ∈ fileLines content, ¬ Blank line
  distinct : ((fileLines content).filterMap headerName).Nodup

/-- A file has been rewritten for the given project files and dependencies, with
the extension of every dependency replaced. -/
def Rewritten (content : Text) (projects dependencies : List Text) : Prop :=
  ∃ data, readBexchFile content = some data ∧
    lookup "PROJECT FILES".toList data.sections = some projects ∧
    lookup "BOUND OBJECT FILES".toList data.sections =
      some (dependencies.map fun entry => (splitext entry).1 ++ ".o".toList) ∧
    lookup "GENERATED OBJECT FILE".toList data.sections = some [] ∧
    lookup "GENERATED SOURCE FILES".toList data.sections = some [] ∧
    lookup "RESULTING OPTIONS".toList data.sections = some [] ∧
    lookup "RUN PATH OPTION".toList data.sections = some []

/-- The script rewrites the file if it has both sections, touching no other
file, and leaves all files alone if one of the sections is missing. -/
structure MapsFile (path content : Text) (files : Files) : Prop where
  rewrites : ∀ projects dependencies,
    sectionEntries "PROJECT FILES".toList (fileLines content) = some projects →
    sectionEntries "DEPENDENCY FILES".toList (fileLines content) =
      some dependencies →
    ∃ written, Rewritten written projects dependencies ∧
      adabind [path] files = (true, Function.update files path (some written))
  leavesAlone :
    sectionEntries "PROJECT FILES".toList (fileLines content) = none ∨
      sectionEntries "DEPENDENCY FILES".toList (fileLines content) = none →
    adabind [path] files = (false, files)

section Lookup

/-- What one pass of the reader does, by the header that it sees. -/
theorem readLine_cases {data next : BexchData} {line : Text}
    (read : readLine data line = some next) :
    (∃ name, headerName line = some name ∧
      next = data.beginNewSection name) ∨
    (headerName line = none ∧ next = data.appendLine (strip line)) := by
  unfold readLine at read
  split at read
  · cases read
  · rename_i header
    exact Or.inl ⟨_, if_pos header, (Option.some.inj read).symm⟩
  · rename_i header
    refine Or.inr ⟨if_neg ?_, (Option.some.inj read).symm⟩
    simp [header]

theorem sectionEntries_of_not_mem {name : Text} {lines : List Text}
    (absent : name ∉ lines.filterMap headerName) :
    sectionEntries name lines = none := by
  induction lines with
  | nil => rfl
  | cons line lines ih =>
      rw [List.mem_filterMap] at absent
      rw [sectionEntries, if_neg fun header =>
        absent ⟨line, List.mem_cons_self, header⟩]
      apply ih
      intro member
      obtain ⟨other, otherMem, header⟩ := List.mem_filterMap.mp member
      exact absent ⟨other, List.mem_cons_of_mem _ otherMem, header⟩

theorem lookup_appendLine (data : BexchData) {name : Text} (named : name ≠ [])
    (line : Text) :
    lookup name (data.appendLine line).sections =
      if data.lastSection = some name then
        (lookup name data.sections).map (· ++ [line])
      else
        lookup name data.sections := by
  obtain ⟨sections, lastSection⟩ := data
  unfold BexchData.appendLine
  split
  · rename_i none
    simp_all
  · rename_i unnamed
    simp_all [Ne.symm named]
  · rename_i last _ isLast
    simp only at isLast
    simp [isLast]

@[simp]
theorem lastSection_appendLine (data : BexchData) (line : Text) :
    (data.appendLine line).lastSection = data.lastSection := by
  unfold BexchData.appendLine
  split <;> rfl

/-- The entries of a section once the remaining lines are read. -/
def finalEntries (name : Text) (data : BexchData) (lines : List Text) :
    Option (List Text) :=
  if data.lastSection = some name then
    (lookup name data.sections).map
      (· ++ (lines.takeWhile fun line => headerName line = none).map strip)
  else
    (sectionEntries name lines).or (lookup name data.sections)

/-- A section whose header is still to come has not begun. -/
def Pending (name : Text) (data : BexchData) (lines : List Text) : Prop :=
  name ∈ lines.filterMap headerName →
    lookup name data.sections = none ∧ data.lastSection ≠ some name

theorem lookup_beginNewSection (data : BexchData) (header name : Text) :
    lookup name (data.beginNewSection header).sections =
      if header = name then some [] else lookup name data.sections :=
  lookup_assign _ _ _ _

theorem Pending.beginNewSection {data : BexchData} {name header line : Text}
    {lines : List Text} (pending : Pending name data (line :: lines))
    (isHeader : headerName line = some header)
    (distinct : ((line :: lines).filterMap headerName).Nodup) :
    Pending name (data.beginNewSection header) lines := by
  rw [List.filterMap_cons_some isHeader, List.nodup_cons] at distinct
  rw [Pending, List.filterMap_cons_some isHeader] at pending
  intro member
  have different : header ≠ name := by
    rintro rfl
    exact distinct.1 member
  rw [lookup_beginNewSection, if_neg different]
  exact ⟨(pending (List.mem_cons_of_mem _ member)).1,
    fun isName => different (Option.some.inj isName)⟩

theorem Pending.appendLine {data : BexchData} {name line : Text}
    {lines : List Text} (pending : Pending name data (line :: lines))
    (named : name ≠ []) (noHeader : headerName line = none) (entry : Text) :
    Pending name (data.appendLine entry) lines := by
  rw [Pending, List.filterMap_cons_none noHeader] at pending
  intro member
  obtain ⟨missing, different⟩ := pending member
  rw [lookup_appendLine data named, if_neg different, lastSection_appendLine]
  exact ⟨missing, different⟩

/-- A header begins its section and ends the last one. -/
theorem finalEntries_beginNewSection {data : BexchData}
    {name header line : Text} {lines : List Text}
    (pending : Pending name data (line :: lines))
    (isHeader : headerName line = some header) :
    finalEntries name (data.beginNewSection header) lines =
      finalEntries name data (line :: lines) := by
  rw [Pending, List.filterMap_cons_some isHeader] at pending
  have begun : (data.beginNewSection header).lastSection = some header :=
    rfl
  rw [finalEntries, lookup_beginNewSection, begun, finalEntries]
  by_cases same : header = name
  · subst same
    obtain ⟨missing, different⟩ := pending List.mem_cons_self
    rw [if_pos rfl, if_pos rfl, if_neg different, sectionEntries,
      if_pos isHeader]
    simp
  · have different : ¬ some header = some name :=
      fun isName => same (Option.some.inj isName)
    rw [if_neg same, if_neg different, sectionEntries, isHeader,
      if_neg different]
    by_cases current : data.lastSection = some name
    · have absent : name ∉ lines.filterMap headerName :=
        fun member => (pending (List.mem_cons_of_mem _ member)).2 current
      rw [sectionEntries_of_not_mem absent, if_pos current,
        List.takeWhile_cons_of_neg (by simp [isHeader])]
      simp
    · rw [if_neg current]

/-- Another line is an entry of the last section. -/
theorem finalEntries_appendLine {data : BexchData} {name line : Text}
    {lines : List Text} (named : name ≠ [])
    (noHeader : headerName line = none) :
    finalEntries name (data.appendLine (strip line)) lines =
      finalEntries name data (line :: lines) := by
  have different : ¬ (none : Option Text) = some name := by
    simp
  rw [finalEntries, lookup_appendLine data named, lastSection_appendLine,
    finalEntries, sectionEntries, noHeader, if_neg different,
    List.takeWhile_cons_of_pos (by simp [noHeader])]
  by_cases current : data.lastSection = some name
  · simp only [if_pos current, Option.map_map, List.map_cons]
    congr 1
    funext entries
    simp
  · simp only [if_neg current]

/-- The table holds the entries between the headers of the lines. -/
theorem lookup_readLines {data last : BexchData} {name : Text}
    {lines : List Text} (named : name ≠ [])
    (distinct : (lines.filterMap headerName).Nodup)
    (pending : Pending name data lines)
    (read : readLines data lines = some last) :
    lookup name last.sections = finalEntries name data lines := by
  induction lines generalizing data with
  | nil =>
      obtain rfl : data = last := Option.some.inj read
      simp [finalEntries, sectionEntries]
  | cons line lines ih =>
      rw [readLines] at read
      cases first : readLine data line with
      | none => simp [first] at read
      | some next =>
          rw [first] at read
          rcases readLine_cases first with ⟨header, isHeader, rfl⟩ |
            ⟨noHeader, rfl⟩
          · have later := distinct
            rw [List.filterMap_cons_some isHeader, List.nodup_cons] at later
            rw [ih later.2 (pending.beginNewSection isHeader distinct) read,
              finalEntries_beginNewSection pending isHeader]
          · rw [List.filterMap_cons_none noHeader] at distinct
            rw [ih distinct (pending.appendLine named noHeader _) read,
              finalEntries_appendLine named noHeader]

/-- The table that is read holds the entries of every named section. -/
theorem lookup_readBexchFile {content : Text} (name : Text) {data : BexchData}
    (named : name ≠ []) (regular : Regular content)
    (read : readBexchFile content = some data) :
    lookup name data.sections = sectionEntries name (fileLines content) := by
  have looked := lookup_readLines named regular.distinct
    (fun _ => ⟨rfl, by simp⟩) read
  rw [looked, finalEntries, if_neg (by simp)]
  exact Option.or_none

end Lookup

section Output

/-- The table that is written for the given entries. -/
def outputSections (projects objects : List Text) : Table Text (List Text) :=
  [(generatedObjectFile, []), (projectFiles, projects),
    (boundObjectFiles, objects), (generatedSourceFiles, []),
    (resultingOptions, []), (runPathOption, [])]

theorem foldl_appendLine {sections : Table Text (List Text)} {name : Text}
    (absent : name ∉ keys sections) (named : name ≠ [])
    (map : Text → Text) (before entries : List Text) :
    entries.foldl
        (fun (output : BexchData) entry => output.appendLine (map entry))
        ⟨sections ++ [(name, before)], some name⟩ =
      ⟨sections ++ [(name, before ++ entries.map map)], some name⟩ := by
  induction entries generalizing before with
  | nil => simp
  | cons entry entries ih =>
      rw [List.foldl_cons, appendLine_concat absent named, ih]
      simp

/-- New sections follow each other. -/
theorem foldl_beginNewSection (names : List Text) (final : Text)
    {sections : Table Text (List Text)} {last : Option Text}
    (distinct : (keys sections ++ (names ++ [final])).Nodup) :
    (names ++ [final]).foldl BexchData.beginNewSection ⟨sections, last⟩ =
      ⟨sections ++ (names ++ [final]).map fun name => (name, []),
        some final⟩ := by
  induction names generalizing sections last with
  | nil =>
      have absent : final ∉ keys sections := fun member =>
        List.disjoint_of_nodup_append distinct member (by simp)
      exact beginNewSection_of_not_mem absent
  | cons name names ih =>
      have absent : name ∉ keys sections := fun member =>
        List.disjoint_of_nodup_append distinct member (by simp)
      have step : BexchData.beginNewSection ⟨sections, last⟩ name =
          ⟨sections ++ [(name, [])], some name⟩ :=
        beginNewSection_of_not_mem absent
      rw [List.cons_append, List.foldl_cons, step, ih]
      · simp
      · simpa [keys] using distinct

theorem outputData_eq {data : BexchData} {projects dependencies : List Text}
    (hasProjects : lookup projectFiles data.sections = some projects)
    (hasDependencies :
      lookup dependencyFiles data.sections = some dependencies) :
    outputData data =
      some ⟨outputSections projects (dependencies.map objectFile),
        some runPathOption⟩ := by
  have start : (({} : BexchData).beginNewSection
      generatedObjectFile).beginNewSection projectFiles =
        ⟨[(generatedObjectFile, [])] ++ [(projectFiles, [])],
          some projectFiles⟩ :=
    foldl_beginNewSection [generatedObjectFile] projectFiles (by decide)
  have kept := foldl_appendLine
    (show projectFiles ∉ keys [(generatedObjectFile, [])] by decide)
    (by decide) id [] projects
  have bound : BexchData.beginNewSection
      ⟨[(generatedObjectFile, [])] ++ [(projectFiles, projects)],
        some projectFiles⟩ boundObjectFiles =
      ⟨[(generatedObjectFile, []), (projectFiles, projects)] ++
        [(boundObjectFiles, [])], some boundObjectFiles⟩ :=
    beginNewSection_of_not_mem
      (show boundObjectFiles ∉ [generatedObjectFile, projectFiles] by decide)
  have mapped := foldl_appendLine
    (show boundObjectFiles ∉
      keys [(generatedObjectFile, []), (projectFiles, projects)] from
      (show boundObjectFiles ∉ [generatedObjectFile, projectFiles] by decide))
    (by decide) objectFile [] dependencies
  rw [List.map_id, List.nil_append] at kept
  rw [List.nil_append] at mapped
  unfold outputData
  rw [hasProjects, hasDependencies]
  dsimp only
  rw [start, show projects.foldl BexchData.appendLine _ = _ from kept, bound,
    mapped]
  exact congrArg some (foldl_beginNewSection
    [generatedSourceFiles, resultingOptions] runPathOption
    (show ([generatedObjectFile, projectFiles, boundObjectFiles] ++
      [generatedSourceFiles, resultingOptions, runPathOption]).Nodup by decide))

theorem outputData_eq_none {data : BexchData}
    (missing : lookup projectFiles data.sections = none ∨
      lookup dependencyFiles data.sections = none) :
    outputData data = none := by
  unfold outputData
  rcases missing with noProjects | noDependencies
  · rw [noProjects]
  · rw [noDependencies]
    dsimp only
    split <;> rfl

/-- An object file can be read back as an entry. -/
theorem entry_objectFile {entry : Text} (isEntry : Entry entry) :
    Entry (objectFile entry) := by
  have whole := splitext_append entry
  have rootNe := splitext_fst_ne_nil isEntry.trimmed.nonempty
  have last : (objectFile entry).getLast? = some 'o' := by
    rw [objectFile, List.getLast?_append]
    rfl
  have head : (objectFile entry).head? = entry.head? := by
    rw [objectFile, ← whole, List.head?_append_of_ne_nil _ rootNe, whole,
      List.head?_append_of_ne_nil _ rootNe]
  have absent : ∀ character, character ∉ objectExtension →
      character ∉ entry → character ∉ objectFile entry := by
    intro character notExtension notEntry member
    rcases List.mem_append.mp member with root | extension
    · exact notEntry (whole ▸ List.mem_append_left _ root)
    · exact notExtension extension
  refine ⟨⟨?_, ?_, ?_⟩, ?_, ?_⟩
  · intro empty
    rw [empty] at last
    cases last
  · intro character isHead
    exact isEntry.trimmed.head character (head ▸ isHead)
  · intro character isLast
    rw [last] at isLast
    obtain rfl := Option.some.inj isLast
    decide
  · unfold isSectionHeader
    split
    · rename_i empty
      rw [empty] at last
      cases last
    · rw [last]
      simp
  · exact ⟨absent _ (by decide) isEntry.oneLine.1,
      absent _ (by decide) isEntry.oneLine.2⟩

theorem readable_outputSections {projects objects : List Text}
    (areProjects : ∀ line ∈ projects, Entry line)
    (areObjects : ∀ line ∈ objects, Entry line) :
    Readable (outputSections projects objects) := by
  have named : ∀ name entries, name ≠ [] → OneLine name →
      (∀ line ∈ entries, Entry line) → Section (name, entries) :=
    fun name entries nonempty oneLine areEntries =>
      ⟨oneLine, fun empty => absurd empty nonempty, areEntries⟩
  constructor
  · exact show [generatedObjectFile, projectFiles, boundObjectFiles,
      generatedSourceFiles, resultingOptions, runPathOption].Nodup by decide
  · intro entry member
    simp only [outputSections, List.mem_cons, List.not_mem_nil, or_false]
      at member
    rcases member with rfl | rfl | rfl | rfl | rfl | rfl
    · exact named _ _ (by decide) ⟨by decide, by decide⟩ (by simp)
    · exact named _ _ (by decide) ⟨by decide, by decide⟩ areProjects
    · exact named _ _ (by decide) ⟨by decide, by decide⟩ areObjects
    · exact named _ _ (by decide) ⟨by decide, by decide⟩ (by simp)
    · exact named _ _ (by decide) ⟨by decide, by decide⟩ (by simp)
    · exact named _ _ (by decide) ⟨by decide, by decide⟩ (by simp)

theorem entries_of_lookup {sections : Table Text (List Text)} {name : Text}
    {entries : List Text} (readable : Readable sections)
    (looked : lookup name sections = some entries) :
    ∀ line ∈ entries, Entry line := by
  have member := mem_of_lookup looked
  exact (readable.sections _ member).entries

/-- What is written for the given entries is read back as such. -/
theorem rewritten_writeBexchFile {projects dependencies : List Text}
    (last : Option Text) (areProjects : ∀ line ∈ projects, Entry line)
    (areDependencies : ∀ line ∈ dependencies, Entry line) :
    Rewritten
      (writeBexchFile
        ⟨outputSections projects (dependencies.map objectFile), last⟩)
      projects dependencies := by
  have areObjects : ∀ line ∈ dependencies.map objectFile, Entry line := by
    intro line member
    obtain ⟨dependency, isDependency, rfl⟩ := List.mem_map.mp member
    exact entry_objectFile (areDependencies dependency isDependency)
  obtain ⟨again, read, sections⟩ := readBexchFile_writeBexchFile
    ⟨outputSections projects (dependencies.map objectFile), last⟩
    (readable_outputSections areProjects areObjects)
  refine ⟨again, read, ?_⟩
  rw [sections]
  exact ⟨rfl, rfl, rfl, rfl, rfl, rfl⟩

end Output

/-- The script maps every regular exchange file. -/
theorem mapsFile (path content : Text) (files : Files)
    (isContent : files path = some content) (regular : Regular content) :
    MapsFile path content files := by
  have succeeds := (readLines_ne_none_iff {} (fileLines content)).mpr
    regular.noBlank
  obtain ⟨data, read⟩ := Option.ne_none_iff_exists'.mp succeeds
  have readable := readable_readBexchFile read
  have hasProjects := lookup_readBexchFile projectFiles (by decide) regular read
  have hasDependencies := lookup_readBexchFile dependencyFiles (by decide)
    regular read
  have opened : adabind [path] files =
      match outputData data with
      | none => (false, files)
      | some output =>
          (true, Function.update files path (some (writeBexchFile output))) := by
    simp only [adabind, isContent]
    rw [show readBexchFile content = some data from read, Option.bind_some]
  constructor
  · intro projects dependencies inProjects inDependencies
    replace inProjects := hasProjects.trans inProjects
    replace inDependencies := hasDependencies.trans inDependencies
    refine ⟨_, rewritten_writeBexchFile (some runPathOption)
      (entries_of_lookup readable inProjects)
      (entries_of_lookup readable inDependencies), ?_⟩
    rw [opened, outputData_eq inProjects inDependencies]
  · intro missing
    rw [opened, outputData_eq_none
      (missing.imp hasProjects.trans hasDependencies.trans)]

/-- In a regular exchange file with a project file and a dependency, the
dependency becomes an object file. -/
theorem mapsFile_sample :
    ∃ written data,
      adabind ["bexch".toList] (fun _ => some
        "[PROJECT FILES]\nmain.gpr\n[DEPENDENCY FILES]\nobj/main.x.ali\n".toList) =
        (true, Function.update (fun _ => some
          "[PROJECT FILES]\nmain.gpr\n[DEPENDENCY FILES]\nobj/main.x.ali\n".toList)
          "bexch".toList (some written)) ∧
      readBexchFile written = some data ∧
      lookup "PROJECT FILES".toList data.sections = some ["main.gpr".toList] ∧
      lookup "BOUND OBJECT FILES".toList data.sections =
        some ["obj/main.x.o".toList] := by
  have regular : Regular
      "[PROJECT FILES]\nmain.gpr\n[DEPENDENCY FILES]\nobj/main.x.ali\n".toList := by
    refine ⟨?_, by decide +kernel⟩
    apply (readLines_ne_none_iff {} _).mp
    rw [← Option.isSome_iff_ne_none]
    decide +kernel
  obtain ⟨written, ⟨data, read, projects, objects, _⟩, writes⟩ :=
    (mapsFile "bexch".toList _ (fun _ => some _) rfl regular).rewrites
      ["main.gpr".toList] ["obj/main.x.ali".toList] (by decide +kernel)
      (by decide +kernel)
  exact ⟨written, data, writes, read, projects,
    objects.trans (by decide +kernel)⟩

end Adabind

end AdacHybridMsp430
