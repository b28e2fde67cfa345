import AdacHybridMsp430.BitfieldCopies

/-!
# Runs of bit field copies

Any sequence of copies by an instance for the order of its memory only moves
bits around.  A field that is saved is restored, and copies that do not touch
each other's fields can be exchanged.
-/

namespace AdacHybridMsp430

namespace BitfieldUtils

open BitMoves ByteMemory Target

/-- The copies of a list, one after the other. -/
def copies (inst : Instance) (fields : List Arguments) (memory : Memory) : Memory :=
  fields.foldl (fun memory arguments => arguments.copy inst memory) memory

/-- The bit address that a bit comes from. -/
def origin : List Arguments → ℕ → ℕ
  | [], k => k
  | arguments :: fields, k =>
      moved arguments.src arguments.dest arguments.size (origin fields k)

/-- A bit address is written by a copy. -/
def Arguments.Writes (arguments : Arguments) (k : ℕ) : Prop :=
  arguments.dest ≤ k ∧ k < arguments.dest + arguments.size

/-- A bit address is read by a copy. -/
def Arguments.Reads (arguments : Arguments) (k : ℕ) : Prop :=
  arguments.src ≤ k ∧ k < arguments.src + arguments.size

/-- A copy writes nothing that another one reads or writes. -/
def Arguments.Avoids (arguments other : Arguments) : Prop :=
  ∀ k, arguments.Writes k → ¬ other.Writes k ∧ ¬ other.Reads k

/-- One copy undoes another one. -/
structure Arguments.Undoes (restore save : Arguments) : Prop where
  src : restore.src = save.dest
  dest : restore.dest = save.src
  size : restore.size = save.size
  apart : ∀ k, save.Reads k → ¬ save.Writes k

section Origins

variable {inst : Instance}

theorem origin_append (first second : List Arguments) (k : ℕ) :
    origin (first ++ second) k = origin first (origin second k) := by
  induction first with
  | nil => rfl
  | cons arguments first ih => rw [List.cons_append, origin, ih, origin]

theorem origin_lt (fields : List Arguments) {k : ℕ} (inMemory : k < 8 * memorySize) :
    origin fields k < 8 * memorySize := by
  induction fields with
  | nil => exact inMemory
  | cons arguments fields ih => exact moved_lt arguments.srcInMemory ih

/-- A bit that no copy writes is where it was. -/
theorem origin_of_not_writes {fields : List Arguments} {k : ℕ}
    (kept : ∀ arguments ∈ fields, ¬ arguments.Writes k) : origin fields k = k := by
  induction fields with
  | nil => rfl
  | cons arguments fields ih =>
      rw [origin, ih fun other member => kept other (List.mem_cons_of_mem _ member)]
      exact moved_of_outside (kept arguments List.mem_cons_self)

/-- A run of copies relocates the bits. -/
theorem relocates_copies (natural : inst.Natural) (fields : List Arguments)
    (memory : Memory) :
    Relocates inst.order (origin fields) memory.contents
      (copies inst fields memory).contents := by
  induction fields generalizing memory with
  | nil => exact fun _ _ => rfl
  | cons arguments fields ih =>
      exact (relocates_copy arguments natural memory).trans
        (ih (arguments.copy inst memory)) fun _ => origin_lt fields

/-- The saved bits come back. -/
theorem origin_restore {save restore : Arguments} (undoes : restore.Undoes save)
    {between : List Arguments}
    (kept : ∀ arguments ∈ between, ∀ k, save.Writes k → ¬ arguments.Writes k)
    {k : ℕ} (inField : save.Reads k) :
    origin (save :: between ++ [restore]) k = k := by
  obtain ⟨src, dest, size, apart⟩ := undoes
  obtain ⟨lower, upper⟩ := inField
  have restored : origin [restore] k = save.dest + (k - save.src) := by
    rw [origin, origin, moved_of_inside (by omega) (by omega), src, dest]
  have isSaved : save.Writes (save.dest + (k - save.src)) :=
    ⟨by omega, by omega⟩
  rw [origin_append, restored, origin, origin_of_not_writes fun arguments member =>
    kept arguments member _ isSaved, moved_of_inside isSaved.1 isSaved.2]
  omega

/-- Copies that avoid each other can be exchanged. -/
theorem origin_exchange {first second : Arguments} (avoids : first.Avoids second)
    (avoids' : second.Avoids first) (k : ℕ) :
    origin [first, second] k = origin [second, first] k := by
  have outside : ∀ arguments other : Arguments, arguments.Avoids other →
      ∀ k, other.Writes k →
        moved arguments.src arguments.dest arguments.size
          (moved other.src other.dest other.size k) =
        moved other.src other.dest other.size
          (moved arguments.src arguments.dest arguments.size k) := by
    intro arguments other avoids k writes
    have notWritten : ¬ arguments.Writes k := fun also => (avoids k also).1 writes
    obtain ⟨lower, upper⟩ := writes
    have notRead : ¬ arguments.Writes (other.src + (k - other.dest)) := fun also =>
      (avoids _ also).2 ⟨by omega, by omega⟩
    rw [moved_of_inside lower upper, moved_of_outside notRead,
      moved_of_outside notWritten, moved_of_inside lower upper]
  rw [origin, origin, origin, origin, origin, origin]
  by_cases secondWrites : second.Writes k
  · exact outside first second avoids k secondWrites
  by_cases firstWrites : first.Writes k
  · exact (outside second first avoids' k firstWrites).symm
  · rw [moved_of_outside secondWrites, moved_of_outside firstWrites,
      moved_of_outside secondWrites]

end Origins

/-- After any run of copies every bit of memory is the one at an address that
does not depend on the memory.  A field that is saved in a place that the run
leaves alone is restored, and copies that avoid each other do the same in either
order. -/
theorem bitfieldRuns {inst : Instance} (natural : inst.Natural) (memory : Memory) :
    (∀ fields, ∀ k < 8 * memorySize,
      origin fields k < 8 * memorySize ∧
        bitAt inst.order (copies inst fields memory).contents k =
          bitAt inst.order memory.contents (origin fields k)) ∧
    (∀ save between restore, restore.Undoes save →
      (∀ arguments ∈ between, ∀ k, save.Writes k → ¬ arguments.Writes k) →
      ∀ k, save.Reads k →
        bitAt inst.order
            (copies inst (save :: between ++ [restore]) memory).contents k =
          bitAt inst.order memory.contents k) ∧
    ∀ first second, first.Avoids second → second.Avoids first →
      (copies inst [first, second] memory).contents =
        (copies inst [second, first] memory).contents := by
  refine ⟨fun fields k inMemory => ⟨origin_lt fields inMemory,
    relocates_copies natural fields memory k inMemory⟩, ?_, ?_⟩
  · intro save between restore undoes kept k inField
    have inMemory : k < 8 * memorySize :=
      lt_of_lt_of_le inField.2 save.srcInMemory
    rw [relocates_copies natural _ memory k inMemory,
      origin_restore undoes kept inField]
  · intro first second avoids avoids'
    have one := relocates_copies natural [first, second] memory
    have other := relocates_copies natural [second, first] memory
    funext address
    refine @byte_eq_of_bit_eq inst.order _ _ fun i below => ?_
    have inMemory : 8 * address.toNat + i < 8 * 2 ^ 16 := by
      have bound := address.isLt
      omega
    have same := (one _ inMemory).trans (congrArg _ (origin_exchange avoids avoids' _))
    rw [← other _ inMemory, bitAt_byte _ _ _ below, bitAt_byte _ _ _ below,
      BitVec.ofNat_toNat, BitVec.setWidth_eq] at same
    exact same

/-- A field of 40 bits that is saved in another place. -/
def saveArguments : Arguments :=
  { overlappingArguments with
    destAddress := 0x300#16
    destOffset := ⟨1, by decide⟩
    destInMemory := by decide
    forward := by decide }

def restoreArguments : Arguments where
  srcAddress := saveArguments.destAddress
  srcOffset := saveArguments.destOffset
  destAddress := saveArguments.srcAddress
  destOffset := saveArguments.srcOffset
  size := saveArguments.size
  srcInMemory := saveArguments.destInMemory
  destInMemory := saveArguments.srcInMemory
  forward := by decide

theorem undoes_saveArguments : restoreArguments.Undoes saveArguments where
  src := rfl
  dest := rfl
  size := rfl
  apart k reads writes := by
    have read : k < 8 * 0x201 + 6 + 40 := reads.2
    have written : 8 * 0x300 + 1 ≤ k := writes.1
    omega

/-- The overlapping copy moves bits of the field, which is restored then. -/
theorem bitfieldRuns_restored :
    bitAt .big (copies bigWords [saveArguments, overlappingArguments, restoreArguments]
        (fresh fun address => address.setWidth 8)).contents 4120 =
      bitAt .big (fun address => address.setWidth 8 : Contents 16) 4120 := by
  refine (bitfieldRuns (show bigWords.Natural from rfl) _).2.1 saveArguments
    [overlappingArguments] restoreArguments undoes_saveArguments ?_ 4120
    ⟨by decide, by decide⟩
  intro arguments member k saved
  rw [List.mem_singleton.mp member]
  rintro ⟨lower, upper⟩
  have written : k < 8 * 0x201 + 3 + 40 := upper
  have place : 8 * 0x300 + 1 ≤ k := saved.1
  omega

end BitfieldUtils

end AdacHybridMsp430
