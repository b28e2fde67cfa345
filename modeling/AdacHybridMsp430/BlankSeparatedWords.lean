import Mathlib.Data.List.Basic

/-!
# Words between blanks

Splitting a list into its maximal blank-free segments, over any alphabet and
any notion of blank.  The main facts are that a blank between two lists splits
the words there, and that spreading a list out with a blank after every
element leaves only one-element words.
-/

namespace BlankSeparated

variable {α : Type*} (blank : α → Bool)

/-- The nonempty segments of a list between its blanks. -/
def words (symbols : List α) : List (List α) :=
  (symbols.splitOnP blank).filter fun segment => !segment.isEmpty

@[simp]
theorem words_nil : words blank [] = [] := by
  simp [words]

theorem words_append_blank {separator : α} (isBlank : blank separator)
    (first second : List α) :
    words blank (first ++ separator :: second) =
      words blank first ++ words blank second := by
  simp [words, List.splitOnP_append_cons first second isBlank]

theorem words_blank_cons {separator : α} (isBlank : blank separator)
    (symbols : List α) :
    words blank (separator :: symbols) = words blank symbols := by
  simpa using words_append_blank blank isBlank [] symbols

/-- A nonempty blank-free list is a single word. -/
theorem words_of_blankFree {word : List α} (nonempty : word ≠ [])
    (blankFree : ∀ symbol ∈ word, blank symbol = false) :
    words blank word = [word] := by
  simp [words, List.splitOnP_eq_singleton blankFree, nonempty]

/-- A blank-free start is part of the first word, which ends at the next
blank. -/
theorem exists_words_append {start : List α} (nonempty : start ≠ [])
    (blankFree : ∀ symbol ∈ start, blank symbol = false) (rest : List α) :
    ∃ others, words blank (start ++ rest) =
      (start ++ rest.takeWhile fun symbol => !blank symbol) :: others := by
  induction rest generalizing start with
  | nil => exact ⟨[], by simpa using words_of_blankFree blank nonempty blankFree⟩
  | cons symbol rest ih =>
      cases isBlank : blank symbol with
      | true =>
          refine ⟨words blank rest, ?_⟩
          rw [words_append_blank blank isBlank,
            words_of_blankFree blank nonempty blankFree]
          simp [isBlank]
      | false =>
          have longer : ∀ other ∈ start ++ [symbol], blank other = false := by
            intro other member
            rcases List.mem_append.mp member with old | new
            · exact blankFree other old
            · rw [List.mem_singleton.mp new, isBlank]
          obtain ⟨others, split⟩ := ih (by simp) longer
          exact ⟨others, by simpa [isBlank] using split⟩

theorem flatten_splitOnP (symbols : List α) :
    (symbols.splitOnP blank).flatten =
      symbols.filter fun symbol => !blank symbol := by
  induction symbols with
  | nil => simp
  | cons head tail ih =>
      obtain ⟨first, rest, split⟩ :=
        List.exists_cons_of_ne_nil (List.splitOnP_ne_nil blank tail)
      rw [split] at ih
      rw [List.splitOnP_cons_eq_if_modifyHead]
      by_cases isBlank : blank head <;> simp_all

/-- Concatenating the words leaves exactly the non-blank symbols. -/
theorem flatten_words (symbols : List α) :
    (words blank symbols).flatten =
      symbols.filter fun symbol => !blank symbol := by
  rw [words, List.flatten_filter_not_isEmpty, flatten_splitOnP]

/-- The words of lists joined by single blanks are the words of the lists. -/
theorem words_intercalate {separator : α} (isBlank : blank separator)
    (segments : List (List α)) :
    words blank ([separator].intercalate segments) =
      segments.flatMap (words blank) := by
  induction segments with
  | nil => simp
  | cons first rest ih =>
      cases rest with
      | nil => simp
      | cons second rest =>
          rw [List.intercalate_cons_cons, List.append_assoc,
            List.singleton_append, words_append_blank blank isBlank, ih]
          rfl

/-- Blank-free nonempty lists are their own words. -/
theorem flatMap_words_of_blankFree {segments : List (List α)}
    (plain : ∀ segment ∈ segments,
      segment ≠ [] ∧ ∀ symbol ∈ segment, blank symbol = false) :
    segments.flatMap (words blank) = segments := by
  induction segments with
  | nil => rfl
  | cons first rest ih =>
      have firstPlain := plain first (by simp)
      rw [List.flatMap_cons, words_of_blankFree blank firstPlain.1 firstPlain.2,
        ih fun segment member => plain segment (by simp [member]),
        List.singleton_append]

/-- With a blank between any two neighbours, every word is a single symbol. -/
theorem words_intersperse {separator : α} (isBlank : blank separator)
    (symbols : List α) :
    words blank (symbols.intersperse separator) =
      (symbols.filter fun symbol => !blank symbol).map fun symbol => [symbol] := by
  induction symbols with
  | nil => simp
  | cons head tail ih =>
      have headWords : words blank [head] =
          ([head].filter fun symbol => !blank symbol).map
            fun symbol => [symbol] := by
        cases headBlank : blank head with
        | true => simpa [headBlank] using words_blank_cons blank headBlank []
        | false =>
            simpa [headBlank] using
              words_of_blankFree blank (show [head] ≠ [] by simp)
                (by simp [headBlank])
      cases tail with
      | nil => simpa using headWords
      | cons second rest =>
          rw [List.intersperse_cons_cons, ← List.singleton_append,
            words_append_blank blank isBlank, ih, headWords,
            ← List.map_append, ← List.filter_append, List.singleton_append]

/-- The words of a list are all single symbols exactly when splitting it agrees
with splitting its spread-out form. -/
theorem words_intersperse_eq_iff {separator : α} (isBlank : blank separator)
    (symbols : List α) :
    words blank (symbols.intersperse separator) = words blank symbols ↔
      ∀ word ∈ words blank symbols, word.length = 1 := by
  rw [words_intersperse blank isBlank]
  constructor
  · intro same word member
    rw [← same] at member
    obtain ⟨symbol, _, rfl⟩ := List.mem_map.mp member
    rfl
  · intro single
    rw [← flatten_words blank symbols]
    generalize words blank symbols = segments at single
    induction segments with
    | nil => rfl
    | cons first rest ih =>
        obtain ⟨symbol, rfl⟩ := List.length_eq_one_iff.mp (single first (by simp))
        simpa using ih fun word member => single word (by simp [member])

theorem filter_intersperse {separator : α} (isBlank : blank separator)
    (symbols : List α) :
    ((symbols.intersperse separator).filter fun symbol => !blank symbol) =
      symbols.filter fun symbol => !blank symbol := by
  rw [← flatten_words, words_intersperse blank isBlank]
  induction symbols.filter fun symbol => !blank symbol with
  | nil => rfl
  | cons head tail ih => simpa using ih

end BlankSeparated
