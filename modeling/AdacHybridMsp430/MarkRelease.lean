import Mathlib.Data.List.Infix
import Mathlib.Data.Nat.Notation

/-!
# Mark and release

Allocation in stack order: blocks are put on top of each other, a mark
remembers the height of the stack, and a release returns to a mark.  The live
blocks and the outstanding marks form a history, newest first.  What a history
says about the heights is enough to bound the blocks and to keep them apart.
-/

namespace MarkRelease

variable {Mark Block : Type*}

/-- A live block or an outstanding mark. -/
inductive Entry (Mark Block : Type*)
  | mark (mark : Mark)
  | block (block : Block)

/-- The height of the stack after a history. -/
def height (size : Block → ℕ) : List (Entry Mark Block) → ℕ
  | [] => 0
  | .mark _ :: older => height size older
  | .block block :: older => height size older + size block

/-- The live blocks, newest first. -/
def blocks : List (Entry Mark Block) → List Block
  | [] => []
  | .mark _ :: older => blocks older
  | .block block :: older => block :: blocks older

/-- Every mark denotes, and every block is located at, the height of what is
older. -/
def Placed (size : Block → ℕ) (denotes : Mark → ℕ → Prop)
    (located : Block → ℕ → Prop) : List (Entry Mark Block) → Prop
  | [] => True
  | .mark mark :: older =>
      denotes mark (height size older) ∧ Placed size denotes located older
  | .block block :: older =>
      located block (height size older) ∧ Placed size denotes located older

/-- The history after a release to a mark, given by how many outstanding marks
are newer, with that mark. -/
def releaseTo : ℕ → List (Entry Mark Block) →
    Option (Mark × List (Entry Mark Block))
  | _, [] => none
  | newer, .block _ :: older => releaseTo newer older
  | 0, .mark mark :: older => some (mark, .mark mark :: older)
  | newer + 1, .mark _ :: older => releaseTo newer older

section Rules

variable {size : Block → ℕ} {denotes : Mark → ℕ → Prop}
  {located : Block → ℕ → Prop} {history : List (Entry Mark Block)}

/-- A release ends in a part of the history that starts with the mark. -/
theorem releaseTo_eq_some {newer : ℕ} {mark : Mark}
    {rest : List (Entry Mark Block)}
    (released : releaseTo newer history = some (mark, rest)) :
    rest <:+ history ∧ ∃ older, rest = .mark mark :: older := by
  induction history generalizing newer with
  | nil => simp [releaseTo] at released
  | cons entry older ih =>
      cases entry with
      | block block =>
          rw [releaseTo] at released
          exact ⟨(ih released).1.trans (List.suffix_cons _ _), (ih released).2⟩
      | mark other =>
          cases newer with
          | zero =>
              simp only [releaseTo, Option.some.injEq, Prod.mk.injEq] at released
              obtain ⟨rfl, rfl⟩ := released
              exact ⟨List.suffix_refl _, older, rfl⟩
          | succ newer =>
              rw [releaseTo] at released
              exact ⟨(ih released).1.trans (List.suffix_cons _ _),
                (ih released).2⟩

theorem height_le_of_suffix (size : Block → ℕ)
    {rest : List (Entry Mark Block)} (isSuffix : rest <:+ history) :
    height size rest ≤ height size history := by
  induction history with
  | nil => rw [List.suffix_nil.mp isSuffix]
  | cons entry older ih =>
      rcases List.suffix_cons_iff.mp isSuffix with rfl | inOlder
      · exact le_rfl
      · cases entry with
        | mark mark => exact ih inOlder
        | block block => exact (ih inOlder).trans (Nat.le_add_right _ _)

theorem Placed.of_suffix {rest : List (Entry Mark Block)}
    (placed : Placed size denotes located history)
    (isSuffix : rest <:+ history) : Placed size denotes located rest := by
  induction history with
  | nil =>
      rw [List.suffix_nil.mp isSuffix]
      exact trivial
  | cons entry older ih =>
      rcases List.suffix_cons_iff.mp isSuffix with rfl | inOlder
      · exact placed
      · cases entry with
        | mark mark => exact ih placed.2 inOlder
        | block block => exact ih placed.2 inOlder

/-- A live block is located at the height of what is older. -/
theorem Placed.exists_older (placed : Placed size denotes located history)
    {block : Block} (live : block ∈ blocks history) :
    ∃ older, .block block :: older <:+ history ∧
      located block (height size older) := by
  induction history with
  | nil => simp [blocks] at live
  | cons entry rest ih =>
      cases entry with
      | mark mark =>
          obtain ⟨older, isSuffix, isLocated⟩ := ih placed.2 live
          exact ⟨older, isSuffix.trans (List.suffix_cons _ _), isLocated⟩
      | block newest =>
          rcases List.mem_cons.mp live with rfl | old
          · exact ⟨rest, List.suffix_refl _, placed.1⟩
          · obtain ⟨older, isSuffix, isLocated⟩ := ih placed.2 old
            exact ⟨older, isSuffix.trans (List.suffix_cons _ _), isLocated⟩

/-- A newer live block lies above an older one. -/
theorem Placed.pairwise (placed : Placed size denotes located history) :
    (blocks history).Pairwise fun newer older =>
      ∃ above below, located newer above ∧ located older below ∧
        below + size older ≤ above := by
  induction history with
  | nil => exact List.Pairwise.nil
  | cons entry older ih =>
      cases entry with
      | mark mark => exact ih placed.2
      | block newest =>
          refine List.pairwise_cons.mpr ⟨fun block live => ?_, ih placed.2⟩
          obtain ⟨below, isSuffix, isLocated⟩ := placed.2.exists_older live
          exact ⟨height size older, height size below, placed.1, isLocated,
            height_le_of_suffix size isSuffix⟩

/-- If every size is a multiple of a unit, so is every height. -/
theorem dvd_height {unit : ℕ} (multiple : ∀ block, unit ∣ size block)
    (history : List (Entry Mark Block)) : unit ∣ height size history := by
  induction history with
  | nil => exact Nat.dvd_zero unit
  | cons entry older ih =>
      cases entry with
      | mark mark => exact ih
      | block block => exact Nat.dvd_add ih (multiple block)

end Rules

end MarkRelease
