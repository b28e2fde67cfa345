import Mathlib.Algebra.Ring.Int.Defs
import Mathlib.Data.Nat.Notation
import Mathlib.Logic.Function.Basic

/-!
# Text buffers

A text that is written from left to right into a string variable, with the
index of its last character.  What is in front of the text stays as it was.
-/

namespace TextBuffers

/-- A string variable with the index of the last character written to it. -/
@[ext]
structure Buffer where
  text : ℤ → Char
  last : ℤ

namespace Buffer

/-- Write a character behind the last one. -/
def put (buffer : Buffer) (character : Char) : Buffer where
  text := Function.update buffer.text (buffer.last + 1) character
  last := buffer.last + 1

def putAll (buffer : Buffer) (characters : List Char) : Buffer :=
  characters.foldl put buffer

variable (buffer : Buffer)

@[simp]
theorem putAll_nil : buffer.putAll [] = buffer :=
  rfl

theorem putAll_cons (character : Char) (characters : List Char) :
    buffer.putAll (character :: characters) =
      (buffer.put character).putAll characters :=
  rfl

@[simp]
theorem putAll_putAll (first second : List Char) :
    (buffer.putAll first).putAll second = buffer.putAll (first ++ second) :=
  List.foldl_append.symm

@[simp]
theorem put_eq_putAll (character : Char) :
    buffer.put character = buffer.putAll [character] :=
  rfl

@[simp]
theorem last_putAll (characters : List Char) :
    (buffer.putAll characters).last = buffer.last + characters.length := by
  induction characters generalizing buffer with
  | nil => simp
  | cons character characters ih =>
      rw [putAll_cons, ih, put, List.length_cons]
      push_cast
      omega

/-- The text outside of what is written stays as it was. -/
theorem text_putAll_of_outside (characters : List Char) {i : ℤ}
    (outside : i ≤ buffer.last ∨ buffer.last + characters.length < i) :
    (buffer.putAll characters).text i = buffer.text i := by
  induction characters generalizing buffer with
  | nil => rfl
  | cons character characters ih =>
      rw [List.length_cons] at outside
      push_cast at outside
      rw [putAll_cons, ih (buffer.put character) (by
        simp only [put]
        omega)]
      exact Function.update_of_ne (by omega) _ _

/-- The characters of a string from an index on. -/
def slice (text : ℤ → Char) (first : ℤ) (count : ℕ) : List Char :=
  (List.range count).map fun k : ℕ => text (first + k)

@[simp]
theorem length_slice (text : ℤ → Char) (first : ℤ) (count : ℕ) :
    (slice text first count).length = count := by
  simp [slice]

theorem slice_succ (text : ℤ → Char) (first : ℤ) (count : ℕ) :
    slice text first (count + 1) =
      slice text first count ++ [text (first + count)] := by
  simp [slice, List.range_succ]

theorem slice_cons (text : ℤ → Char) (first : ℤ) (count : ℕ) :
    slice text first (count + 1) =
      text first :: slice text (first + 1) count := by
  simp only [slice, List.range_succ_eq_map, List.map_cons, List.map_map,
    Nat.cast_zero, add_zero, List.cons.injEq, true_and]
  refine List.map_congr_left fun k _ => ?_
  simp only [Function.comp_apply, Nat.succ_eq_add_one]
  push_cast
  congr 1
  omega

theorem slice_add (text : ℤ → Char) (first : ℤ) (count more : ℕ) :
    slice text first (count + more) =
      slice text first count ++ slice text (first + count) more := by
  induction more with
  | zero => simp [slice]
  | succ more ih =>
      rw [← Nat.add_assoc, slice_succ, ih, slice_succ, List.append_assoc]
      push_cast
      rw [Int.add_assoc]

/-- A string that agrees on the indices of a slice has the same slice. -/
theorem slice_congr {text other : ℤ → Char} {first : ℤ} {count : ℕ}
    (agree : ∀ i, first ≤ i → i < first + count → text i = other i) :
    slice text first count = slice other first count := by
  refine List.map_congr_left fun k member => ?_
  have bound := List.mem_range.mp member
  exact agree _ (by omega) (by omega)

/-- The written text follows the last character. -/
theorem slice_putAll (characters : List Char) :
    slice (buffer.putAll characters).text (buffer.last + 1)
      characters.length = characters := by
  induction characters generalizing buffer with
  | nil => rfl
  | cons character characters ih =>
      rw [List.length_cons, slice_cons, putAll_cons]
      congr 1
      · apply (text_putAll_of_outside (buffer.put character) characters
          (Or.inl (Int.le_refl (buffer.last + 1)))).trans
        exact Function.update_self _ _ _
      · exact ih (buffer.put character)

/-- The characters written, one by one. -/
theorem text_putAll_of_inside (characters : List Char) {k : ℕ}
    (inside : k < characters.length) :
    (buffer.putAll characters).text (buffer.last + 1 + k) = characters[k] := by
  have written := slice_putAll buffer characters
  have bound : k < (slice (buffer.putAll characters).text (buffer.last + 1)
      characters.length).length := by
    rwa [length_slice]
  rw [← List.getElem_of_eq written bound]
  simp [slice]

/-- Overwriting one of the characters written. -/
theorem update_putAll (characters : List Char) {k : ℕ}
    (inside : k < characters.length) (character : Char) :
    ({ buffer.putAll characters with
      text := Function.update (buffer.putAll characters).text
        (buffer.last + 1 + k) character } : Buffer) =
      buffer.putAll (characters.set k character) := by
  apply Buffer.ext
  · funext i
    dsimp only
    by_cases outside : i ≤ buffer.last ∨ buffer.last + characters.length < i
    · rw [Function.update_of_ne (by omega), text_putAll_of_outside _ _ outside,
        text_putAll_of_outside _ _ (by rwa [List.length_set])]
    · obtain ⟨j, rfl⟩ : ∃ j : ℕ, i = buffer.last + 1 + j :=
        ⟨(i - buffer.last - 1).toNat, by omega⟩
      have bound : j < characters.length := by omega
      rw [text_putAll_of_inside buffer (characters.set k character)
        (by rwa [List.length_set]), List.getElem_set]
      split
      · rename_i same
        rw [same, Function.update_self]
      · rename_i different
        rw [Function.update_of_ne (by omega), text_putAll_of_inside _ _ bound]
  · simp

/-- A text follows what was in the buffer, and nothing else is changed. -/
structure Appended (before after : Buffer) (characters : List Char) : Prop where
  last : after.last = before.last + characters.length
  written : slice after.text (before.last + 1) characters.length = characters
  kept : ∀ i, i ≤ before.last ∨ after.last < i → after.text i = before.text i

theorem appended_putAll (characters : List Char) :
    Appended buffer (buffer.putAll characters) characters where
  last := last_putAll buffer characters
  written := slice_putAll buffer characters
  kept i outside := by
    rw [last_putAll] at outside
    exact text_putAll_of_outside buffer characters outside

end Buffer

end TextBuffers
