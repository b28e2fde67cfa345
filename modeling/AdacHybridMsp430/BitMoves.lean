import AdacHybridMsp430.ByteMemory

/-!
# Moves of bits

A program that only copies bits gives every bit of the memory the value of a
bit from before, at an address that does not depend on the memory.  The copy of
an interval is such a relocation, and relocations compose.
-/

namespace BitMoves

open ByteMemory

/-- The address that the bit at `k` comes from when `size` bits are copied from
`src` to `dest`. -/
def moved (src dest size k : ℕ) : ℕ :=
  if dest ≤ k ∧ k < dest + size then src + (k - dest) else k

theorem moved_of_inside {src dest size k : ℕ} (ge : dest ≤ k)
    (lt : k < dest + size) : moved src dest size k = src + (k - dest) :=
  if_pos ⟨ge, lt⟩

theorem moved_of_outside {src dest size k : ℕ}
    (outside : ¬(dest ≤ k ∧ k < dest + size)) :
    moved src dest size k = k :=
  if_neg outside

@[simp]
theorem moved_zero (src dest k : ℕ) : moved src dest 0 k = k :=
  moved_of_outside (by omega)

theorem moved_lt {src dest size k bound : ℕ} (srcBound : src + size ≤ bound)
    (hk : k < bound) : moved src dest size k < bound := by
  unfold moved
  split <;> omega

/-- Two neighbouring moves are one, if the first leaves the source of the second
alone. -/
theorem moved_moved {src dest size count : ℕ}
    (forward : dest ≤ src ∨ src + (size + count) ≤ dest) (k : ℕ) :
    moved src dest size (moved (src + size) (dest + size) count k) =
      moved src dest (size + count) k := by
  by_cases second : dest + size ≤ k ∧ k < dest + size + count
  · rw [moved_of_inside second.1 second.2, moved_of_outside (by omega),
      moved_of_inside (by omega) (by omega)]
    omega
  · rw [moved_of_outside second, moved, moved]
    split <;> split <;> omega

/-- Two neighbouring moves, the upper one first, are one if the lower one leaves
the destination of the upper one alone. -/
theorem moved_moved_backward {src dest size count : ℕ} (backward : src ≤ dest)
    (k : ℕ) :
    moved (src + size) (dest + size) count (moved src dest size k) =
      moved src dest (size + count) k := by
  by_cases first : dest ≤ k ∧ k < dest + size
  · rw [moved_of_inside first.1 first.2, moved_of_outside (by omega),
      moved_of_inside (by omega) (by omega)]
  · rw [moved_of_outside first, moved, moved]
    split <;> split <;> omega

/-- A move determines its source and its destination. -/
theorem moved_eq_moved_iff {src dest src' dest' size bound : ℕ}
    (proper : src ≠ dest) (sizePos : 0 < size)
    (destBound : dest + size ≤ bound) :
    (∀ k < bound, moved src' dest' size k = moved src dest size k) ↔
      src' = src ∧ dest' = dest := by
  constructor
  · intro same
    have first := same dest (by omega)
    have last := same (dest + (size - 1)) (by omega)
    rw [moved_of_inside le_rfl (by omega)] at first
    rw [moved_of_inside (show dest ≤ dest + (size - 1) by omega)
      (show _ < dest + size by omega)] at last
    simp only [moved] at first last
    split at first <;> split at last <;> omega
  · rintro ⟨rfl, rfl⟩ k _
    rfl

variable {width : ℕ}

/-- Every bit after comes from the address that `source` gives. -/
def Relocates (order : ByteOrder) (source : ℕ → ℕ)
    (before after : Contents width) : Prop :=
  ∀ k < 8 * 2 ^ width, bitAt order after k = bitAt order before (source k)

theorem Relocates.trans {order : ByteOrder} {first second : ℕ → ℕ}
    {before middle after : Contents width}
    (firstMove : Relocates order first before middle)
    (secondMove : Relocates order second middle after)
    (inMemory : ∀ k < 8 * 2 ^ width, second k < 8 * 2 ^ width) :
    Relocates order (fun k => first (second k)) before after := by
  intro k hk
  rw [secondMove k hk, firstMove _ (inMemory k hk)]

theorem Relocates.congr {order : ByteOrder} {source other : ℕ → ℕ}
    {before after : Contents width}
    (relocates : Relocates order source before after)
    (same : ∀ k < 8 * 2 ^ width, source k = other k) :
    Relocates order other before after := by
  intro k hk
  rw [relocates k hk, same k hk]

/-- A byte whose bits come from those of another byte. -/
theorem Relocates.byte {order : ByteOrder} {source : ℕ → ℕ}
    {before after : Contents width} (relocates : Relocates order source before after)
    {byte other : ℕ} (inMemory : byte < 2 ^ width)
    (same : ∀ i < 8, source (8 * byte + i) = 8 * other + i) :
    after (BitVec.ofNat width byte) = before (BitVec.ofNat width other) := by
  refine @byte_eq_of_bit_eq order _ _ ?_
  intro i hi
  rw [← bitAt_byte order after byte hi, relocates _ (by omega), same i hi,
    bitAt_byte order before other hi]

/-- A program that takes the bit at `k` from a wrong address is wrong on some
memory. -/
theorem not_relocates_of_ne {order : ByteOrder} {wanted : ℕ → ℕ}
    {run : Contents width → Contents width} (k source : ℕ)
    (hk : k < 8 * 2 ^ width)
    (comes : ∀ contents,
      bitAt order (run contents) k = bitAt order contents source)
    (sourceInMemory : source < 8 * 2 ^ width)
    (wantedInMemory : wanted k < 8 * 2 ^ width) (differs : source ≠ wanted k) :
    ¬∀ contents, Relocates order wanted contents (run contents) := by
  intro correct
  obtain ⟨contents, bits⟩ :=
    exists_bitAt_eq order fun j => decide (j = source)
  have same := correct contents k hk
  rw [comes, bits _ sourceInMemory, bits _ wantedInMemory] at same
  exact differs (by simpa [eq_comm] using same)

/-- Programs that relocate bits do the same on every memory only if they take
each bit from the same address. -/
theorem relocates_iff {order : ByteOrder} {source wanted : ℕ → ℕ}
    {run : Contents width → Contents width}
    (relocates : ∀ contents, Relocates order source contents (run contents))
    (sourceInMemory : ∀ k < 8 * 2 ^ width, source k < 8 * 2 ^ width)
    (wantedInMemory : ∀ k < 8 * 2 ^ width, wanted k < 8 * 2 ^ width) :
    (∀ contents, Relocates order wanted contents (run contents)) ↔
      ∀ k < 8 * 2 ^ width, source k = wanted k := by
  constructor
  · intro correct k hk
    by_contra differs
    exact not_relocates_of_ne k _ hk (fun contents => relocates contents k hk)
      (sourceInMemory k hk) (wantedInMemory k hk) differs correct
  · intro same contents
    exact (relocates contents).congr same

end BitMoves
