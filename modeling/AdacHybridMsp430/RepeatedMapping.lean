import AdacHybridMsp430.ObjectMapping

/-!
# Repeated runs of the binder

A file that `msp430-elf-adabind` has written has no dependencies any more, so
that the script fails on it and leaves it alone.  Over any number of runs every
exchange file is rewritten at most once.
-/

namespace AdacHybridMsp430

namespace Adabind

open Assembly OrderedTables Function

/-- The runs of the script on some argument lists, with the paths of the files
that they have rewritten. -/
def adabindRuns : List (List Text) → Files → List Text × Files
  | [], files => ([], files)
  | args :: runs, files =>
      let (completed, files) := adabind args files
      let (paths, files) := adabindRuns runs files
      (if completed then args ++ paths else paths, files)

/-- A file without dependencies. -/
def Mapped (content : Option Text) : Prop :=
  ∃ text data, content = some text ∧ readBexchFile text = some data ∧
    lookup dependencyFiles data.sections = none

/-- The script fails on a file without dependencies. -/
theorem adabind_of_mapped {path : Text} {files : Files}
    (mapped : Mapped (files path)) : adabind [path] files = (false, files) := by
  obtain ⟨text, data, isText, read, missing⟩ := mapped
  simp only [adabind, isText]
  rw [show readBexchFile text = some data from read, Option.bind_some,
    outputData_eq_none (Or.inr missing)]

theorem lookup_outputSections (projects objects : List Text) :
    lookup dependencyFiles (outputSections projects objects) = none :=
  rfl

/-- What a run does to the files. -/
theorem adabind_cases (args : List Text) (files : Files) :
    adabind args files = (false, files) ∨
      ∃ path text, args = [path] ∧ ¬ Mapped (files path) ∧ Mapped (some text) ∧
        adabind args files = (true, update files path (some text)) := by
  match args with
  | [] => exact Or.inl rfl
  | _ :: _ :: _ => exact Or.inl rfl
  | [path] =>
      by_cases mapped : Mapped (files path)
      · exact Or.inl (adabind_of_mapped mapped)
      unfold adabind
      dsimp only
      split
      · exact Or.inl rfl
      · rename_i content isContent
        split
        · exact Or.inl rfl
        · rename_i output hasOutput
          right
          obtain ⟨data, read, isOutput⟩ := Option.bind_eq_some_iff.mp hasOutput
          have present : lookup projectFiles data.sections ≠ none ∧
              lookup dependencyFiles data.sections ≠ none := by
            rw [← not_or]
            intro missing
            rw [outputData_eq_none missing] at isOutput
            cases isOutput
          obtain ⟨projects, hasProjects⟩ := Option.ne_none_iff_exists'.mp present.1
          obtain ⟨dependencies, hasDependencies⟩ :=
            Option.ne_none_iff_exists'.mp present.2
          have readable := readable_readBexchFile read
          have areDependencies := entries_of_lookup readable hasDependencies
          rw [outputData_eq hasProjects hasDependencies] at isOutput
          obtain rfl := Option.some.inj isOutput
          obtain ⟨again, readAgain, sections⟩ := readBexchFile_writeBexchFile
            ⟨outputSections projects (dependencies.map objectFile),
              some runPathOption⟩
            (readable_outputSections (entries_of_lookup readable hasProjects)
              (by
                intro line member
                obtain ⟨dependency, isDependency, rfl⟩ := List.mem_map.mp member
                exact entry_objectFile (areDependencies dependency isDependency)))
          refine ⟨path, _, rfl, mapped, ⟨_, again, rfl, readAgain, ?_⟩, rfl⟩
          rw [sections]
          exact lookup_outputSections _ _

/-- Over any number of runs on any files, every file is rewritten at most once:
the rewritten files have no dependencies left, and the others are the same. -/
theorem rewritesOnce (runs : List (List Text)) (files : Files) :
    (adabindRuns runs files).1.Nodup ∧
      (∀ path ∈ (adabindRuns runs files).1,
        ¬ Mapped (files path) ∧ Mapped ((adabindRuns runs files).2 path)) ∧
      ∀ path ∉ (adabindRuns runs files).1,
        (adabindRuns runs files).2 path = files path := by
  induction runs generalizing files with
  | nil => simp [adabindRuns]
  | cons args runs ih =>
      rw [adabindRuns]
      rcases adabind_cases args files with fails |
        ⟨path, text, rfl, unmapped, mapped, rewrites⟩
      · rw [fails]
        exact ih files
      · rw [rewrites]
        obtain ⟨nodup, rewritten, kept⟩ := ih (update files path (some text))
        dsimp only
        rw [if_pos rfl, List.singleton_append]
        have notAgain :
            path ∉ (adabindRuns runs (update files path (some text))).1 := by
          intro member
          apply (rewritten path member).1
          rwa [update_self]
        refine ⟨List.nodup_cons.mpr ⟨notAgain, nodup⟩, ?_, ?_⟩
        · intro other member
          rcases List.mem_cons.mp member with rfl | later
          · rw [kept other notAgain, update_self]
            exact ⟨unmapped, mapped⟩
          · obtain ⟨before, after⟩ := rewritten other later
            refine ⟨?_, after⟩
            rwa [update_of_ne] at before
            rintro rfl
            exact notAgain later
        · intro other absent
          obtain ⟨different, later⟩ := not_or.mp (mt List.mem_cons.mpr absent)
          rw [kept other later, update_of_ne different]

end Adabind

end AdacHybridMsp430
