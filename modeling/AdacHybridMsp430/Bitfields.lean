import AdacHybridMsp430.BitfieldUtils

/-!
# The bit field copies of the run-time

`System.Bitfields` instantiates the copies with 32-bit `Val`s and takes the bit
order from `System.Default_Bit_Order`, which is that of a big-endian machine.
On the little-endian memory of the MSP430 every field is then mirrored within
its pair of `Val`s, and only fields that are their own mirror image are copied
to the right place.
-/

namespace AdacHybridMsp430

namespace Bitfields

open ByteMemory BitMoves Target BitfieldUtils

/-- `Long_Long_Integer'Size`. -/
def longLongIntegerSize : ℕ := 64

def valBits : ℕ := longLongIntegerSize / 2

/-- `package Utils is new System.Bitfield_Utils.G (Val, Val_2)`. -/
def utils : Instance where
  valBytes := valBits / storageUnit
  allowed := by decide
  endian := defaultBitOrder
  order := byteOrder

def copyBitfield (srcAddress : Address) (srcOffset : ℕ)
    (destAddress : Address) (destOffset size : ℕ) (memory : Memory) :
    Memory :=
  BitfieldUtils.copyBitfield utils srcAddress srcOffset destAddress destOffset
    size memory

/-- Two bit fields in memory that do not overlap, as the arguments of a copy. -/
structure Fields where
  srcAddress : Address
  srcOffset : Fin storageUnit
  destAddress : Address
  destOffset : Fin storageUnit
  size : ℕ
  srcInMemory :
    8 * srcAddress.toNat + srcOffset + size ≤ 8 * memorySize
  destInMemory :
    8 * destAddress.toNat + destOffset + size ≤ 8 * memorySize
  apart :
    8 * srcAddress.toNat + srcOffset + size ≤
        8 * destAddress.toNat + destOffset ∨
      8 * destAddress.toNat + destOffset + size ≤
        8 * srcAddress.toNat + srcOffset

namespace Fields

variable (fields : Fields)

/-- The bit address of the source. -/
def src : ℕ := 8 * fields.srcAddress.toNat + fields.srcOffset

/-- The bit address of the destination. -/
def dest : ℕ := 8 * fields.destAddress.toNat + fields.destOffset

def copy (memory : Memory) : Memory :=
  copyBitfield fields.srcAddress fields.srcOffset fields.destAddress
    fields.destOffset fields.size memory

/-- The source bits are in the destination, and no other bit has changed. -/
structure Copied (before after : Contents 16) : Prop where
  copied : ∀ i < fields.size,
    bitAt byteOrder after (fields.dest + i) =
      bitAt byteOrder before (fields.src + i)
  unchanged : ∀ k < 8 * memorySize,
    (k < fields.dest ∨ fields.dest + fields.size ≤ k) →
      bitAt byteOrder after k = bitAt byteOrder before k

end Fields

/-- A field in the middle of the 32 or 64 bits that are accessed for it. -/
def Centred (offset size : ℕ) : Prop :=
  2 * offset + size = if offset + size ≤ valBits then valBits else 2 * valBits

/-- The fields that are copied correctly: small fields that are centred, and
sequences of whole `Val`s to an aligned address, from an aligned address or one
halfway to the next. -/
def Fields.Supported (fields : Fields) : Prop :=
  fields.size = 0 ∨
    fields.size ≤ valBits ∧ Centred (fields.src % valBits) fields.size ∧
      Centred (fields.dest % valBits) fields.size ∨
    valBits < fields.size ∧ fields.size % valBits = 0 ∧
      fields.dest % valBits = 0 ∧
      (fields.src % valBits = 0 ∨ fields.src % valBits = valBits / 2)

theorem Fields.bounds (fields : Fields) :
    fields.src + fields.size ≤ 8 * 2 ^ 16 ∧
      fields.dest + fields.size ≤ 8 * 2 ^ 16 ∧ fields.dest < 8 * 2 ^ 16 ∧
      (fields.src + fields.size ≤ fields.dest ∨
        fields.dest + fields.size ≤ fields.src) := by
  have address := fields.destAddress.isLt
  have offset : (fields.destOffset : ℕ) < 8 := fields.destOffset.isLt
  refine ⟨fields.srcInMemory, fields.destInMemory, ?_, fields.apart⟩
  unfold dest
  omega

section Utils

@[simp]
theorem valBytes_utils : utils.valBytes = 4 := rfl

@[simp]
theorem valSize_utils : utils.valSize = 32 := rfl

@[simp]
theorem order_utils : utils.order = byteOrder := rfl

theorem windowSize_utils (offset size : ℕ) :
    windowSize utils offset size = if offset + size ≤ 32 then 32 else 64 := by
  rw [windowSize, valSize_utils]

/-- A field really begins at its mirror image. -/
theorem start_utils (offset size : ℕ) :
    start utils offset size =
      (if offset + size ≤ 32 then 32 else 64) - (offset + size) := by
  have unnatural : ¬utils.Natural := by
    decide
  by_cases fits : offset + size ≤ 32
  · simp only [start, lead, place, unnatural, fits, valSize_utils, if_false,
      not_false_eq_true, and_self, if_true]
    omega
  · simp only [start, lead, place, unnatural, fits, valSize_utils, if_false,
      not_false_eq_true, and_true]
    omega

theorem start_add_size_le_utils {offset size : ℕ} (hOffset : offset < 32)
    (hSize : size ≤ 32) :
    start utils offset size + size ≤
      if offset + size ≤ 32 then 32 else 64 := by
  rw [start_utils]
  split <;> omega

/-- A small field is moved from mirror image to mirror image. -/
theorem relocates_small (src : ℕ) {dest srcOffset destOffset size : ℕ}
    (memory : Memory) (hSrc : srcOffset < 32) (hDest : destOffset < 32)
    (hSize : size ≤ 32)
    (inMemory : 8 * dest + (if destOffset + size ≤ 32 then 32 else 64) ≤
      8 * memorySize) :
    Relocates byteOrder
      (moved (8 * src + start utils srcOffset size)
        (8 * dest + start utils destOffset size) size)
      memory.contents
      (copySmallBitfield utils (BitVec.ofNat 16 src) srcOffset
        (BitVec.ofNat 16 dest) destOffset size memory).contents := by
  rw [← windowSize_utils] at inMemory
  exact relocates_copySmallBitfield utils src memory hSrc hDest hSize inMemory

theorem bitAt_loop_of_outside (sAddr : Address) {sOff length dest k : ℕ}
    (memory : Memory) (hSrc : sOff < 32)
    (inMemory : 8 * dest + length * 32 ≤ 8 * memorySize)
    (hk : k < 8 * memorySize)
    (outside : k < 8 * dest ∨ 8 * dest + length * 32 ≤ k) :
    bitAt byteOrder
        (copyVals utils sOff length (BitVec.ofNat 16 dest) sAddr
          memory).2.contents k =
      bitAt byteOrder memory.contents k :=
  bitAt_copyVals_of_outside utils sAddr memory hSrc inMemory hk outside

/-- Whole words are moved at once, from the mirror image of the source. -/
theorem relocates_loop {src dest sOff length : ℕ} (memory : Memory)
    (hSrc : sOff < 32)
    (srcInMemory : 8 * src + start utils sOff 32 + length * 32 ≤
      8 * memorySize)
    (destInMemory : 8 * dest + length * 32 ≤ 8 * memorySize)
    (forward : 8 * dest ≤ 8 * src + start utils sOff 32 ∨
      8 * src + start utils sOff 32 + length * 32 ≤ 8 * dest) :
    Relocates byteOrder
      (moved (8 * src + start utils sOff 32) (8 * dest) (length * 32))
      memory.contents
      (copyVals utils sOff length (BitVec.ofNat 16 dest) (BitVec.ofNat 16 src)
        memory).2.contents :=
  relocates_copyVals utils memory hSrc srcInMemory destInMemory forward

end Utils

section Copies

variable (fields : Fields)

/-- The bit fields are accessed from the aligned words below them. -/
theorem copy_eq (memory : Memory) :
    fields.copy memory =
      if fields.size ≤ 32 then
        copySmallBitfield utils
          (BitVec.ofNat 16 (4 * (fields.src / 32))) (fields.src % 32)
          (BitVec.ofNat 16 (4 * (fields.dest / 32))) (fields.dest % 32)
          fields.size memory
      else
        copyLargeBitfield utils
          (BitVec.ofNat 16 (4 * (fields.src / 32))) (fields.src % 32)
          (BitVec.ofNat 16 (4 * (fields.dest / 32))) (fields.dest % 32)
          fields.size memory := by
  have aligned (address : Address) (offset : Fin storageUnit) :
      address.toNat - address.toNat % 4 =
          4 * ((8 * address.toNat + offset) / 32) ∧
        offset + 8 * (address.toNat % 4) =
          (8 * address.toNat + offset) % 32 := by
    have bound : (offset : ℕ) < 8 := offset.isLt
    omega
  have srcAligned := aligned fields.srcAddress fields.srcOffset
  have destAligned := aligned fields.destAddress fields.destOffset
  simp only [Fields.copy, copyBitfield, BitfieldUtils.copyBitfield,
    alignedAddress, adjustedOffset, valBytes_utils, valSize_utils, Fields.src,
    Fields.dest, srcAligned, destAligned]

theorem copied_iff_relocates (before after : Contents 16) :
    fields.Copied before after ↔
      Relocates byteOrder (moved fields.src fields.dest fields.size) before
        after := by
  have destInMemory : fields.dest + fields.size ≤ 8 * memorySize :=
    fields.destInMemory
  constructor
  · intro correct k hk
    by_cases inField : fields.dest ≤ k ∧ k < fields.dest + fields.size
    · rw [moved_of_inside inField.1 inField.2,
        ← correct.copied (k - fields.dest) (by omega),
        show fields.dest + (k - fields.dest) = k by omega]
    · rw [moved_of_outside inField]
      exact correct.unchanged k hk (by omega)
  · intro relocates
    refine ⟨?_, ?_⟩
    · intro i hi
      have moves := relocates (fields.dest + i) (by
        simp only [memorySize] at destInMemory
        omega)
      rwa [moved_of_inside (by omega) (by omega), Nat.add_sub_cancel_left]
        at moves
    · intro k hk outside
      rw [relocates k hk, moved_of_outside (by omega)]

/-- To copy the fields on every memory is to relocate their bits on every
memory. -/
theorem copied_iff (run : Memory → Memory) :
    (∀ contents, fields.Copied contents (run (fresh contents)).contents) ↔
      ∀ contents, Relocates byteOrder
        (moved fields.src fields.dest fields.size) contents
        (run (fresh contents)).contents :=
  forall_congr' fun contents => copied_iff_relocates fields contents _

theorem moved_inMemory : ∀ k < 8 * 2 ^ 16,
    moved fields.src fields.dest fields.size k < 8 * 2 ^ 16 := by
  intro k hk
  exact moved_lt fields.srcInMemory hk

/-- Small fields are moved from mirror image to mirror image. -/
theorem copied_small_iff (small : fields.size ≤ 32) :
    (∀ contents,
        fields.Copied contents (fields.copy (fresh contents)).contents) ↔
      fields.size = 0 ∨
        start utils (fields.src % 32) fields.size = fields.src % 32 ∧
          start utils (fields.dest % 32) fields.size = fields.dest % 32 := by
  obtain ⟨srcInMemory, destInMemory, destLt, apart⟩ := fields.bounds
  have srcOffset : fields.src % 32 < 32 := Nat.mod_lt _ (by omega)
  have destOffset : fields.dest % 32 < 32 := Nat.mod_lt _ (by omega)
  have srcWindow := start_add_size_le_utils srcOffset small
  have destWindow := start_add_size_le_utils destOffset small
  have relocates : ∀ contents, Relocates byteOrder
      (moved (8 * (4 * (fields.src / 32)) +
          start utils (fields.src % 32) fields.size)
        (8 * (4 * (fields.dest / 32)) +
          start utils (fields.dest % 32) fields.size) fields.size)
      contents (fields.copy (fresh contents)).contents := by
    intro contents
    rw [copy_eq, if_pos small]
    refine relocates_small _ (fresh contents) srcOffset destOffset small ?_
    rw [memorySize]
    split <;> omega
  rcases Nat.eq_zero_or_pos fields.size with empty | sizePos
  · refine iff_of_true ?_ (Or.inl empty)
    rw [copied_iff fields fields.copy]
    intro contents
    apply (relocates contents).congr
    intro k _
    rw [empty, moved_zero, moved_zero]
  · rw [copied_iff fields fields.copy,
      relocates_iff relocates ?_ (moved_inMemory fields),
      moved_eq_moved_iff (by omega) sizePos destInMemory]
    · omega
    · intro k hk
      refine moved_lt ?_ hk
      split at srcWindow <;> omega

/-- Steps 2 and 3 leave the bits before their destination alone. -/
theorem bitAt_copyAligned_of_lt {cursor : Cursor} {dest k : ℕ}
    (memory : Memory) (hDest : cursor.dAddr = BitVec.ofNat 16 dest)
    (hSrc : cursor.sOff < 32) (aligned : 8 * dest % 32 = 0)
    (inMemory : 8 * dest + cursor.sz ≤ 8 * memorySize)
    (hk : k < 8 * memorySize) (before : k < 8 * dest) :
    bitAt byteOrder (copyAligned utils cursor memory).contents k =
      bitAt byteOrder memory.contents k := by
  have loop := bitAt_loop_of_outside cursor.sAddr memory hSrc
    (show 8 * dest + cursor.sz / 32 * 32 ≤ 8 * memorySize by omega) hk
    (Or.inl before)
  rw [copyAligned, hDest, valSize_utils]
  dsimp only
  by_cases whole : cursor.sz % 32 = 0
  · rw [whole, copyFinal, if_neg (by simp)]
    exact loop
  · let looped := copyVals utils cursor.sOff (cursor.sz / 32)
      (BitVec.ofNat 16 dest) cursor.sAddr memory
    have final := relocates_small looped.1.toNat looped.2 hSrc
      (show 0 < 32 by omega) (show cursor.sz % 32 ≤ 32 by omega)
      (show 8 * (dest + cursor.sz / 32 * 4) +
        (if 0 + cursor.sz % 32 ≤ 32 then 32 else 64) ≤ 8 * memorySize by
          rw [if_pos (by omega)]
          simp only [memorySize] at inMemory ⊢
          omega) k hk
    rw [BitVec.ofNat_toNat, BitVec.setWidth_eq, moved_of_outside (by omega)]
      at final
    rw [copyFinal_of_ne utils _ _ _ whole, addressAfter]
    exact final.trans loop

/-- Step 1 puts the first bits at the start of their word. -/
theorem not_copied_of_misaligned (large : 32 < fields.size)
    (misaligned : fields.dest % 32 ≠ 0) :
    ¬∀ contents,
      fields.Copied contents (fields.copy (fresh contents)).contents := by
  obtain ⟨srcInMemory, destInMemory, destLt, apart⟩ := fields.bounds
  have srcOffset : fields.src % 32 < 32 := Nat.mod_lt _ (by omega)
  have destOffset : fields.dest % 32 < 32 := Nat.mod_lt _ (by omega)
  have destStart := start_utils (fields.dest % 32) (32 - fields.dest % 32)
  have srcStart := start_utils (fields.src % 32) (32 - fields.dest % 32)
  rw [if_pos (by omega)] at destStart
  rw [copied_iff fields fields.copy]
  refine not_relocates_of_ne (8 * (4 * (fields.dest / 32)))
    (8 * (4 * (fields.src / 32)) +
      start utils (fields.src % 32) (32 - fields.dest % 32))
    (by omega) ?_ (by split at srcStart <;> omega)
    (by rw [moved_of_outside] <;> omega)
    (by rw [moved_of_outside] <;> split at srcStart <;> omega)
  intro contents
  obtain ⟨cursorSize, cursorOffset, cursorDest⟩ := cursor_of_ne utils
    fields.size (4 * (fields.dest / 32))
    (BitVec.ofNat 16 (4 * (fields.src / 32))) (fresh contents) misaligned
    (show fields.src % 32 < utils.valSize from srcOffset)
  have first := relocates_small (4 * (fields.src / 32)) (fresh contents)
    srcOffset destOffset (show 32 - fields.dest % 32 ≤ 32 by omega)
    (show 8 * (4 * (fields.dest / 32)) + _ ≤ 8 * memorySize by
      rw [if_pos (by omega), memorySize]
      omega) (8 * (4 * (fields.dest / 32))) (by omega)
  rw [moved_of_inside (by omega) (by omega)] at first
  rw [copy_eq, if_neg (by omega), copyLargeBitfield]
  dsimp only
  rw [bitAt_copyAligned_of_lt _ cursorDest cursorOffset
    (by rw [valBytes_utils]; omega)
    (by rw [cursorSize, valBytes_utils, valSize_utils, memorySize]; omega)
    (by rw [memorySize]; omega) (by rw [valBytes_utils]; omega),
    copyInitial_of_ne utils _ _ _ misaligned, valSize_utils]
  have atOnce : 8 * (4 * (fields.dest / 32)) -
      (8 * (4 * (fields.dest / 32)) +
        start utils (fields.dest % 32) (32 - fields.dest % 32)) = 0 := by
    omega
  rw [atOnce] at first
  exact first

/-- Step 3 puts the last bits at the end of their word. -/
theorem not_copied_of_rest (large : 32 < fields.size)
    (aligned : fields.dest % 32 = 0) (rest : fields.size % 32 ≠ 0) :
    ¬∀ contents,
      fields.Copied contents (fields.copy (fresh contents)).contents := by
  obtain ⟨srcInMemory, destInMemory, destLt, apart⟩ := fields.bounds
  have srcOffset : fields.src % 32 < 32 := Nat.mod_lt _ (by omega)
  have srcStart := start_utils (fields.src % 32) (fields.size % 32)
  have destStart := start_utils 0 (fields.size % 32)
  rw [if_pos (by omega)] at destStart
  -- The last bit of the word comes from the last bit of the field, at `source`.
  let source := 8 * (4 * (fields.src / 32) + fields.size / 32 * 4) +
    start utils (fields.src % 32) (fields.size % 32) + (fields.size % 32 - 1)
  have sourceEq : source = 8 * (4 * (fields.src / 32) + fields.size / 32 * 4) +
    start utils (fields.src % 32) (fields.size % 32) +
      (fields.size % 32 - 1) := rfl
  let last := fields.dest + fields.size / 32 * 32 + 31
  have lastEq : last = fields.dest + fields.size / 32 * 32 + 31 := rfl
  rw [copied_iff fields fields.copy]
  refine not_relocates_of_ne last source (by omega) ?_
    (by split at srcStart <;> omega)
    (by rw [moved_of_outside] <;> omega)
    (by rw [moved_of_outside] <;> split at srcStart <;> omega)
  intro contents
  let looped := (copyVals utils (fields.src % 32) (fields.size / 32)
    (BitVec.ofNat 16 (4 * (fields.dest / 32)))
    (BitVec.ofNat 16 (4 * (fields.src / 32))) (fresh contents)).2
  have loop : bitAt byteOrder looped.contents source =
      bitAt byteOrder contents source :=
    bitAt_loop_of_outside _ (fresh contents) srcOffset
      (by rw [memorySize]; omega)
      (by rw [memorySize]; split at srcStart <;> omega)
      (by split at srcStart <;> omega)
  have final := relocates_small
    (4 * (fields.src / 32) + fields.size / 32 * 4) looped srcOffset
    (show 0 < 32 by omega) (show fields.size % 32 ≤ 32 by omega)
    (show 8 * (4 * (fields.dest / 32) + fields.size / 32 * 4) + _ ≤
      8 * memorySize by
        rw [if_pos (by omega), memorySize]
        omega) last (by omega)
  have distance : last - (8 * (4 * (fields.dest / 32) + fields.size / 32 * 4) +
      start utils 0 (fields.size % 32)) = fields.size % 32 - 1 := by
    omega
  rw [moved_of_inside (by omega) (by omega), distance, ← sourceEq] at final
  rw [copy_eq, if_neg (by omega), aligned, copyLargeBitfield_zero]
  simp only [copyAligned, valSize_utils, addressAfter, copyVals_fst,
    valBytes_utils]
  rw [copyFinal_of_ne utils _ _ _ rest]
  exact final.trans loop

/-- Whole words are moved at once, from the mirror image of the source. -/
theorem copied_whole_iff (large : 32 < fields.size)
    (aligned : fields.dest % 32 = 0) (whole : fields.size % 32 = 0) :
    (∀ contents,
        fields.Copied contents (fields.copy (fresh contents)).contents) ↔
      start utils (fields.src % 32) 32 = fields.src % 32 := by
  obtain ⟨srcInMemory, destInMemory, destLt, apart⟩ := fields.bounds
  have srcOffset : fields.src % 32 < 32 := Nat.mod_lt _ (by omega)
  have srcStart := start_utils (fields.src % 32) 32
  have words : fields.size / 32 * 32 = fields.size := by
    omega
  have relocates : ∀ contents, Relocates byteOrder
      (moved (8 * (4 * (fields.src / 32)) + start utils (fields.src % 32) 32)
        fields.dest fields.size)
      contents (fields.copy (fresh contents)).contents := by
    intro contents
    have loop := relocates_loop (fresh contents) srcOffset
      (show 8 * (4 * (fields.src / 32)) + start utils (fields.src % 32) 32 +
          fields.size / 32 * 32 ≤ 8 * memorySize by
        rw [memorySize]
        split at srcStart <;> omega)
      (show 8 * (4 * (fields.dest / 32)) + fields.size / 32 * 32 ≤
          8 * memorySize by
        rw [memorySize]
        omega)
      (by split at srcStart <;> omega)
    rw [words, show 8 * (4 * (fields.dest / 32)) = fields.dest by omega] at loop
    rw [copy_eq, if_neg (by omega), aligned, copyLargeBitfield_zero]
    simp only [copyAligned, valSize_utils, whole, copyFinal, ne_eq,
      not_true_eq_false, if_false]
    exact loop
  rw [copied_iff fields fields.copy,
    relocates_iff relocates ?_ (moved_inMemory fields),
    moved_eq_moved_iff (by omega) (by omega) destInMemory]
  · omega
  · intro k hk
    refine moved_lt ?_ hk
    split at srcStart <;> omega

/-- The fields that are copied correctly on every memory are the supported
ones. -/
theorem copied_copy_iff :
    (∀ contents,
        fields.Copied contents (fields.copy (fresh contents)).contents) ↔
      fields.Supported := by
  simp only [Fields.Supported, Centred, show valBits = 32 from rfl]
  by_cases small : fields.size ≤ 32
  · rw [copied_small_iff fields small, start_utils, start_utils]
    generalize fields.src % 32 = srcOffset
    generalize fields.dest % 32 = destOffset
    split <;> split <;> omega
  · by_cases aligned : fields.dest % 32 = 0
    · by_cases whole : fields.size % 32 = 0
      · rw [copied_whole_iff fields (by omega) aligned whole, start_utils]
        split <;> omega
      · refine iff_of_false
          (not_copied_of_rest fields (by omega) aligned whole) ?_
        omega
    · refine iff_of_false
        (not_copied_of_misaligned fields (by omega) aligned) ?_
      omega

end Copies

/-- One bit, from the start of a word to the start of the next. -/
def oneBit : Fields where
  srcAddress := 0x200
  srcOffset := ⟨0, by decide⟩
  destAddress := 0x204
  destOffset := ⟨0, by decide⟩
  size := 1
  srcInMemory := by decide
  destInMemory := by decide
  apart := by decide

/-- The source bit is set, and no other. -/
def oneBitSet : Contents 16 :=
  fun address => if address = 0x200 then 1 else 0

theorem not_copied_oneBit :
    ¬oneBit.Copied oneBitSet (oneBit.copy (fresh oneBitSet)).contents := by
  intro correct
  have bit := correct.copied 0 Nat.one_pos
  revert bit
  decide +kernel

end Bitfields

end AdacHybridMsp430
