import AdacHybridMsp430.BitfieldUtils

/-!
# Copies in the order of the memory

An instance of `System.Bitfield_Utils.G` whose `Endian` is the bit order of the
memory moves bit fields to their place, also to a lower bit address that
overlaps the source, and accesses only the `Val`s that the fields touch.
-/

namespace AdacHybridMsp430

namespace BitfieldUtils

open ByteMemory BitMoves Target

/-- A bit address as an aligned address and an offset in the `Val` there. -/
structure Aligned (inst : Instance) (base offset bit : ℕ) : Prop where
  dvd : inst.valBytes ∣ base
  inMemory : base < memorySize
  offset_lt : offset < inst.valSize
  bit : bit = 8 * base + offset

section Alignment

variable {inst : Instance} {base offset bit : ℕ}

/-- An aligned `Val` does not wrap around. -/
theorem add_valBytes_le (dvd : inst.valBytes ∣ base)
    (inMemory : base < memorySize) : base + inst.valBytes ≤ memorySize := by
  simp only [memorySize] at inMemory ⊢
  rcases inst.allowed with bytes | bytes | bytes <;> rw [bytes] at dvd ⊢ <;>
    omega

/-- What is accessed for a field in memory is in memory. -/
theorem Aligned.window_le (aligned : Aligned inst base offset bit) {size : ℕ}
    (fits : bit + size ≤ 8 * memorySize) :
    8 * base + windowSize inst offset size ≤ 8 * memorySize := by
  have first := add_valBytes_le aligned.dvd aligned.inMemory
  have isBit := aligned.bit
  have bits := eight_mul_valBytes inst
  rw [windowSize]
  split
  · omega
  · have second := add_valBytes_le (Nat.dvd_add aligned.dvd (dvd_refl _))
      (show base + inst.valBytes < memorySize by omega)
    omega

/-- The same offset some `Val`s later. -/
theorem Aligned.advance (aligned : Aligned inst base offset bit) (count : ℕ)
    (inMemory : bit + count * inst.valSize < 8 * memorySize) :
    Aligned inst (base + count * inst.valBytes) offset
      (bit + count * inst.valSize) := by
  have isBit := aligned.bit
  have bits : count * inst.valSize = 8 * (count * inst.valBytes) := by
    rw [← eight_mul_valBytes, Nat.mul_left_comm]
  exact
    { dvd := Nat.dvd_add aligned.dvd (Nat.dvd_mul_left _ _)
      inMemory := by omega
      offset_lt := aligned.offset_lt
      bit := by omega }

/-- The alignment of `Copy_Bitfield`. -/
theorem aligned_of_address (inst : Instance) (address : Address) {offset : ℕ}
    (inByte : offset < storageUnit) :
    Aligned inst (address.toNat - address.toNat % inst.valBytes)
      (offset + 8 * (address.toNat % inst.valBytes))
      (8 * address.toNat + offset) := by
  have bound := address.isLt
  have positive : 0 < inst.valBytes := by
    rcases inst.allowed with bytes | bytes | bytes <;> omega
  have remainder := Nat.mod_lt address.toNat positive
  have le := Nat.mod_le address.toNat inst.valBytes
  have bits := eight_mul_valBytes inst
  simp only [storageUnit] at inByte
  exact
    { dvd := Nat.dvd_sub_mod _
      inMemory := by
        simp only [memorySize]
        omega
      offset_lt := by omega
      bit := by omega }

end Alignment

section Moves

variable {inst : Instance} {sBase sOff s dBase dOff d size : ℕ}

/-- A field begins where it is said to begin. -/
theorem start_of_natural (natural : inst.Natural) (offset size : ℕ) :
    start inst offset size = offset := by
  simp [start, lead, place, natural]

theorem relocates_small_of_natural (natural : inst.Natural)
    (source : Aligned inst sBase sOff s) (dest : Aligned inst dBase dOff d)
    (small : size ≤ inst.valSize) (fits : d + size ≤ 8 * memorySize)
    (memory : Memory) :
    Relocates inst.order (moved s d size) memory.contents
      (copySmallBitfield inst (BitVec.ofNat 16 sBase) sOff
        (BitVec.ofNat 16 dBase) dOff size memory).contents := by
  have relocates := relocates_copySmallBitfield inst sBase memory
    source.offset_lt dest.offset_lt small (dest.window_le fits)
  rwa [start_of_natural natural, start_of_natural natural, ← source.bit,
    ← dest.bit] at relocates

/-- The loop of step 2 moves whole `Val`s. -/
theorem relocates_vals_of_natural (natural : inst.Natural)
    (source : Aligned inst sBase sOff s) (dest : Aligned inst dBase 0 d)
    (length : ℕ) (sFits : s + length * inst.valSize ≤ 8 * memorySize)
    (dFits : d + length * inst.valSize ≤ 8 * memorySize)
    (forward : d ≤ s ∨ s + length * inst.valSize ≤ d) (memory : Memory) :
    Relocates inst.order (moved s d (length * inst.valSize)) memory.contents
      (copyVals inst sOff length (BitVec.ofNat 16 dBase)
        (BitVec.ofNat 16 sBase) memory).2.contents := by
  have begins := start_of_natural natural sOff inst.valSize
  have sBit : 8 * sBase + start inst sOff inst.valSize = s := by
    rw [begins, source.bit]
  have dBit : 8 * dBase = d :=
    dest.bit.symm
  rw [← sBit] at sFits forward
  rw [← dBit] at dFits forward
  have vals := relocates_copyVals inst memory source.offset_lt sFits dFits
    forward
  rwa [sBit, dBit] at vals

/-- Steps 2 and 3 move the rest of the field. -/
theorem relocates_copyAligned (natural : inst.Natural)
    (source : Aligned inst sBase sOff s) (dest : Aligned inst dBase 0 d)
    (sFits : s + size ≤ 8 * memorySize) (dFits : d + size ≤ 8 * memorySize)
    (forward : d ≤ s ∨ s + size ≤ d) (memory : Memory) :
    Relocates inst.order (moved s d size) memory.contents
      (copyAligned inst
        { sz := size, sAddr := BitVec.ofNat 16 sBase, sOff := sOff,
          dAddr := BitVec.ofNat 16 dBase } memory).contents := by
  have total : size / inst.valSize * inst.valSize + size % inst.valSize =
      size :=
    Nat.div_add_mod' size inst.valSize
  have small : size % inst.valSize ≤ inst.valSize :=
    (Nat.mod_lt _ (Nat.lt_of_le_of_lt (Nat.zero_le _) source.offset_lt)).le
  simp only [copyAligned, addressAfter, copyVals_fst]
  generalize size / inst.valSize = length at total ⊢
  generalize size % inst.valSize = rest at total small ⊢
  have vals := relocates_vals_of_natural natural source dest length
    (by omega) (by omega) (by omega) memory
  by_cases none : rest = 0
  · rw [none, Nat.add_zero] at total
    rw [copyFinal, if_neg (by simpa using none), ← total]
    exact vals
  · rw [copyFinal_of_ne inst _ _ _ none]
    have last := relocates_small_of_natural natural
      (source.advance length (by omega)) (dest.advance length (by omega)) small
      (by omega)
      (copyVals inst sOff length (BitVec.ofNat 16 dBase)
        (BitVec.ofNat 16 sBase) memory).2
    refine (vals.trans last fun k hk => moved_lt ?_ hk).congr ?_
    · simp only [memorySize] at sFits
      omega
    · intro k _
      rw [moved_moved (by omega), total]

/-- What step 1 leaves to be copied. -/
theorem cursor_copyInitial (sz : ℕ) (source : Aligned inst sBase sOff s)
    (dest : Aligned inst dBase dOff d) (misaligned : dOff ≠ 0)
    (sFits : s + (inst.valSize - dOff) < 8 * memorySize)
    (dFits : d + (inst.valSize - dOff) < 8 * memorySize) (memory : Memory) :
    ∃ sBase' sOff',
      (copyInitial inst sz (BitVec.ofNat 16 sBase) sOff
          (BitVec.ofNat 16 dBase) dOff memory).1 =
        { sz := sz - (inst.valSize - dOff), sAddr := BitVec.ofNat 16 sBase',
          sOff := sOff',
          dAddr := BitVec.ofNat 16 (dBase + inst.valBytes) } ∧
      Aligned inst sBase' sOff' (s + (inst.valSize - dOff)) ∧
      Aligned inst (dBase + inst.valBytes) 0 (d + (inst.valSize - dOff)) := by
  have bits := eight_mul_valBytes inst
  obtain ⟨sDvd, sInMemory, sOffset, sBit⟩ := source
  obtain ⟨dDvd, dInMemory, dOffset, dBit⟩ := dest
  have destNext : Aligned inst (dBase + inst.valBytes) 0
      (d + (inst.valSize - dOff)) :=
    { dvd := Nat.dvd_add dDvd (dvd_refl _)
      inMemory := by omega
      offset_lt := by omega
      bit := by omega }
  rw [copyInitial, if_pos misaligned]
  by_cases next : sOff + (inst.valSize - dOff) > inst.valSize - 1
  · refine ⟨sBase + inst.valBytes, sOff + (inst.valSize - dOff) - inst.valSize,
      ?_, ?_, destNext⟩
    · simp only [if_pos next, nextVal]
    · exact
        { dvd := Nat.dvd_add sDvd (dvd_refl _)
          inMemory := by omega
          offset_lt := by omega
          bit := by omega }
  · refine ⟨sBase, sOff + (inst.valSize - dOff), ?_, ?_, destNext⟩
    · simp only [if_neg next, nextVal]
    · exact
        { dvd := sDvd
          inMemory := sInMemory
          offset_lt := by omega
          bit := by omega }

theorem relocates_copyLargeBitfield (natural : inst.Natural)
    (source : Aligned inst sBase sOff s) (dest : Aligned inst dBase dOff d)
    (large : inst.valSize < size) (sFits : s + size ≤ 8 * memorySize)
    (dFits : d + size ≤ 8 * memorySize) (forward : d ≤ s ∨ s + size ≤ d)
    (memory : Memory) :
    Relocates inst.order (moved s d size) memory.contents
      (copyLargeBitfield inst (BitVec.ofNat 16 sBase) sOff
        (BitVec.ofNat 16 dBase) dOff size memory).contents := by
  by_cases misaligned : dOff = 0
  · subst misaligned
    exact relocates_copyAligned natural source dest sFits dFits forward memory
  · have dOffset := dest.offset_lt
    obtain ⟨sBase', sOff', cursor, source', dest'⟩ :=
      cursor_copyInitial size source dest misaligned (by omega) (by omega)
        memory
    have first := relocates_small_of_natural natural source dest
      (show inst.valSize - dOff ≤ inst.valSize by omega) (by omega) memory
    have rest := relocates_copyAligned natural source' dest'
      (show s + (inst.valSize - dOff) + (size - (inst.valSize - dOff)) ≤
        8 * memorySize by omega) (by omega) (by omega)
      (copySmallBitfield inst (BitVec.ofNat 16 sBase) sOff
        (BitVec.ofNat 16 dBase) dOff (inst.valSize - dOff) memory)
    rw [copyLargeBitfield]
    dsimp only
    rw [cursor, copyInitial_of_ne inst _ _ _ misaligned]
    refine (first.trans rest fun k hk => moved_lt ?_ hk).congr ?_
    · simp only [memorySize] at sFits
      omega
    · intro k _
      rw [moved_moved (by omega)]
      congr 1
      omega

end Moves

/-- An aligned `Val` that holds at least one of some bits. -/
structure ValWithBit (inst : Instance) (bits : ℕ → Prop) (base : ℕ) : Prop where
  dvd : inst.valBytes ∣ base
  inMemory : base + inst.valBytes ≤ memorySize
  bit : ∃ k, 8 * base ≤ k ∧ k < 8 * base + inst.valSize ∧ bits k

/-- An access to one or two aligned `Val`s that each hold one of some bits. -/
def ValsWithBits (inst : Instance) (bits : ℕ → Prop) (access : Access 16) :
    Prop :=
  access.count = inst.valBytes ∧
      ValWithBit inst bits access.address.toNat ∨
    access.count = 2 * inst.valBytes ∧
      ValWithBit inst bits access.address.toNat ∧
      ValWithBit inst bits (access.address.toNat + inst.valBytes)

section Accesses

variable {inst : Instance} {sBase sOff s dBase dOff d size : ℕ}
  {bits : ℕ → Prop}

/-- The access that is made for a field at an offset. -/
def windowAccess (inst : Instance) (isStore : Bool) (base offset size : ℕ) :
    Access 16 where
  isStore := isStore
  address := BitVec.ofNat 16 base
  count :=
    if offset + size ≤ inst.valSize then inst.valBytes else 2 * inst.valBytes

theorem accesses_getVal2 (base offset size : ℕ) (memory : Memory) :
    (getVal2 inst (BitVec.ofNat 16 base) offset size memory).2.accesses =
      windowAccess inst false base offset size :: memory.accesses := by
  rw [getVal2, windowAccess]
  split <;> rfl

theorem accesses_setVal2 (base offset size : ℕ) (v : inst.Val2)
    (memory : Memory) :
    (setVal2 inst (BitVec.ofNat 16 base) offset v size memory).accesses =
      windowAccess inst true base offset size :: memory.accesses := by
  rw [setVal2, windowAccess]
  split <;> rfl

/-- The access for a field touches a bit of it in each `Val`. -/
theorem valsWithBits_window {base offset bit : ℕ}
    (aligned : Aligned inst base offset bit) (isStore : Bool)
    (positive : 0 < size) (fits : bit + size ≤ 8 * memorySize)
    (covers : ∀ k, bit ≤ k → k < bit + size → bits k) :
    ValsWithBits inst bits (windowAccess inst isStore base offset size) := by
  have address : (BitVec.ofNat 16 base).toNat = base := by
    rw [BitVec.toNat_ofNat]
    exact Nat.mod_eq_of_lt aligned.inMemory
  have offset_lt := aligned.offset_lt
  have isBit := aligned.bit
  have bytes := eight_mul_valBytes inst
  have first : ValWithBit inst bits base :=
    { dvd := aligned.dvd
      inMemory := add_valBytes_le aligned.dvd aligned.inMemory
      bit := ⟨bit, by omega, by omega, covers bit le_rfl (by omega)⟩ }
  rw [ValsWithBits, windowAccess]
  simp only [address]
  by_cases single : offset + size ≤ inst.valSize
  · exact Or.inl ⟨if_pos single, first⟩
  · refine Or.inr ⟨if_neg single, first, ?_⟩
    have dvd : inst.valBytes ∣ base + inst.valBytes :=
      Nat.dvd_add aligned.dvd (dvd_refl _)
    exact
      { dvd := dvd
        inMemory := add_valBytes_le dvd (by omega)
        bit := ⟨8 * base + inst.valSize, by omega, by omega,
          covers _ (by omega) (by omega)⟩ }

theorem accesses_copySmallBitfield (source : Aligned inst sBase sOff s)
    (dest : Aligned inst dBase dOff d) (positive : 0 < size)
    (sFits : s + size ≤ 8 * memorySize) (dFits : d + size ≤ 8 * memorySize)
    (sCovers : ∀ k, s ≤ k → k < s + size → bits k)
    (dCovers : ∀ k, d ≤ k → k < d + size → bits k) (memory : Memory) :
    Accesses (ValsWithBits inst bits) memory
      (copySmallBitfield inst (BitVec.ofNat 16 sBase) sOff
        (BitVec.ofNat 16 dBase) dOff size memory) := by
  have sWindow := valsWithBits_window source false positive sFits sCovers
  have dWindow := fun isStore =>
    valsWithBits_window dest isStore positive dFits dCovers
  have loaded := accesses_of_cons sWindow
    (accesses_getVal2 sBase sOff size memory)
  have reloaded := accesses_of_cons (dWindow false)
    (accesses_getVal2 dBase dOff size
      (getVal2 inst (BitVec.ofNat 16 sBase) sOff size memory).2)
  exact (loaded.trans reloaded).trans
    (accesses_of_cons (dWindow true) (accesses_setVal2 dBase dOff size _ _))

theorem accesses_copyVal (source : Aligned inst sBase sOff s)
    (dest : Aligned inst dBase 0 d)
    (sFits : s + inst.valSize ≤ 8 * memorySize)
    (dFits : d + inst.valSize ≤ 8 * memorySize)
    (sCovers : ∀ k, s ≤ k → k < s + inst.valSize → bits k)
    (dCovers : ∀ k, d ≤ k → k < d + inst.valSize → bits k) (memory : Memory) :
    Accesses (ValsWithBits inst bits) memory
      (copyVal inst sOff (BitVec.ofNat 16 dBase) (BitVec.ofNat 16 sBase)
        memory) := by
  have positive := dest.offset_lt
  have sWindow := valsWithBits_window source false positive sFits sCovers
  have dWindow := valsWithBits_window dest true positive dFits dCovers
  rw [windowAccess, if_pos (by omega)] at dWindow
  have loaded := accesses_of_cons sWindow
    (accesses_getVal2 sBase sOff inst.valSize memory)
  exact loaded.trans (accesses_of_cons dWindow rfl)

/-- The loop accesses only `Val`s with bits of the fields. -/
theorem accesses_copyVals (length : ℕ) (sDvd : inst.valBytes ∣ sBase)
    (dDvd : inst.valBytes ∣ dBase) (offset : sOff < inst.valSize)
    (sFits : 8 * sBase + sOff + length * inst.valSize ≤ 8 * memorySize)
    (dFits : 8 * dBase + length * inst.valSize ≤ 8 * memorySize)
    (sCovers : ∀ k, 8 * sBase + sOff ≤ k →
      k < 8 * sBase + sOff + length * inst.valSize → bits k)
    (dCovers : ∀ k, 8 * dBase ≤ k →
      k < 8 * dBase + length * inst.valSize → bits k) (memory : Memory) :
    Accesses (ValsWithBits inst bits) memory
      (copyVals inst sOff length (BitVec.ofNat 16 dBase)
        (BitVec.ofNat 16 sBase) memory).2 := by
  induction length generalizing sBase dBase memory with
  | zero => exact Accesses.refl memory
  | succ length ih =>
      rw [Nat.succ_mul length] at sFits dFits sCovers dCovers
      have bytes := eight_mul_valBytes inst
      have source : Aligned inst sBase sOff (8 * sBase + sOff) :=
        { dvd := sDvd
          inMemory := by omega
          offset_lt := offset
          bit := rfl }
      have dest : Aligned inst dBase 0 (8 * dBase) :=
        { dvd := dDvd
          inMemory := by omega
          offset_lt := by omega
          bit := rfl }
      have first := accesses_copyVal source dest (by omega) (by omega)
        (fun k lower upper => sCovers k lower (by omega))
        (fun k lower upper => dCovers k lower (by omega)) memory
      have rest := ih (Nat.dvd_add sDvd (dvd_refl _))
        (Nat.dvd_add dDvd (dvd_refl _)) (by omega) (by omega)
        (fun k lower upper => sCovers k (by omega) (by omega))
        (fun k lower upper => dCovers k (by omega) (by omega))
        (copyVal inst sOff (BitVec.ofNat 16 dBase) (BitVec.ofNat 16 sBase)
          memory)
      simp only [copyVals, nextVal]
      exact first.trans rest

theorem accesses_copyAligned (source : Aligned inst sBase sOff s)
    (dest : Aligned inst dBase 0 d) (sFits : s + size ≤ 8 * memorySize)
    (dFits : d + size ≤ 8 * memorySize)
    (sCovers : ∀ k, s ≤ k → k < s + size → bits k)
    (dCovers : ∀ k, d ≤ k → k < d + size → bits k) (memory : Memory) :
    Accesses (ValsWithBits inst bits) memory
      (copyAligned inst
        { sz := size, sAddr := BitVec.ofNat 16 sBase, sOff := sOff,
          dAddr := BitVec.ofNat 16 dBase } memory) := by
  have total : size / inst.valSize * inst.valSize + size % inst.valSize =
      size :=
    Nat.div_add_mod' size inst.valSize
  have sBit := source.bit
  have dBit := dest.bit
  simp only [copyAligned, addressAfter, copyVals_fst]
  generalize size / inst.valSize = length at total ⊢
  generalize size % inst.valSize = rest at total ⊢
  have vals := accesses_copyVals length source.dvd dest.dvd
    source.offset_lt (by omega) (by omega)
    (fun k lower upper => sCovers k (by omega) (by omega))
    (fun k lower upper => dCovers k (by omega) (by omega)) memory
  by_cases none : rest = 0
  · rw [copyFinal, if_neg (by simpa using none)]
    exact vals
  · rw [copyFinal_of_ne inst _ _ _ none]
    exact vals.trans (accesses_copySmallBitfield
      (source.advance length (by omega)) (dest.advance length (by omega))
      (by omega) (by omega) (by omega)
      (fun k lower upper => sCovers k (by omega) (by omega))
      (fun k lower upper => dCovers k (by omega) (by omega)) _)

theorem accesses_copyLargeBitfield (source : Aligned inst sBase sOff s)
    (dest : Aligned inst dBase dOff d) (large : inst.valSize < size)
    (sFits : s + size ≤ 8 * memorySize) (dFits : d + size ≤ 8 * memorySize)
    (sCovers : ∀ k, s ≤ k → k < s + size → bits k)
    (dCovers : ∀ k, d ≤ k → k < d + size → bits k) (memory : Memory) :
    Accesses (ValsWithBits inst bits) memory
      (copyLargeBitfield inst (BitVec.ofNat 16 sBase) sOff
        (BitVec.ofNat 16 dBase) dOff size memory) := by
  by_cases misaligned : dOff = 0
  · subst misaligned
    exact accesses_copyAligned source dest sFits dFits sCovers dCovers memory
  · have dOffset := dest.offset_lt
    obtain ⟨sBase', sOff', cursor, source', dest'⟩ :=
      cursor_copyInitial size source dest misaligned (by omega) (by omega)
        memory
    have first := accesses_copySmallBitfield source dest
      (show 0 < inst.valSize - dOff by omega) (by omega) (by omega)
      (fun k lower upper => sCovers k (by omega) (by omega))
      (fun k lower upper => dCovers k (by omega) (by omega)) memory
    rw [copyLargeBitfield]
    dsimp only
    rw [cursor, copyInitial_of_ne inst _ _ _ misaligned]
    exact first.trans (accesses_copyAligned source' dest' (by omega)
      (by omega) (fun k lower upper => sCovers k (by omega) (by omega))
      (fun k lower upper => dCovers k (by omega) (by omega)) _)

end Accesses

/-- The arguments of a copy of a bit field to another place in memory, apart
from the source or at a lower bit address.  All bit addresses lie in
`Natural`. -/
structure Arguments where
  srcAddress : Address
  srcOffset : Fin storageUnit
  destAddress : Address
  destOffset : Fin storageUnit
  size : ℕ
  srcInMemory :
    8 * srcAddress.toNat + srcOffset + size ≤ 8 * memorySize
  destInMemory :
    8 * destAddress.toNat + destOffset + size ≤ 8 * memorySize
  forward :
    8 * destAddress.toNat + destOffset ≤ 8 * srcAddress.toNat + srcOffset ∨
      8 * srcAddress.toNat + srcOffset + size ≤
        8 * destAddress.toNat + destOffset

namespace Arguments

variable (arguments : Arguments)

/-- The bit address of the source. -/
def src : ℕ := 8 * arguments.srcAddress.toNat + arguments.srcOffset

/-- The bit address of the destination. -/
def dest : ℕ := 8 * arguments.destAddress.toNat + arguments.destOffset

def copy (inst : Instance) (memory : Memory) : Memory :=
  copyBitfield inst arguments.srcAddress arguments.srcOffset
    arguments.destAddress arguments.destOffset arguments.size memory

/-- The bits of the source and of the destination. -/
def HasBit (k : ℕ) : Prop :=
  arguments.src ≤ k ∧ k < arguments.src + arguments.size ∨
    arguments.dest ≤ k ∧ k < arguments.dest + arguments.size

/-- What a copy has to do. -/
structure MovesBits (inst : Instance) (before after : Memory) : Prop where
  copied : ∀ i < arguments.size,
    bitAt inst.order after.contents (arguments.dest + i) =
      bitAt inst.order before.contents (arguments.src + i)
  unchanged : ∀ k < 8 * memorySize,
    (k < arguments.dest ∨ arguments.dest + arguments.size ≤ k) →
      bitAt inst.order after.contents k = bitAt inst.order before.contents k
  accesses : 0 < arguments.size →
    Accesses (ValsWithBits inst arguments.HasBit) before after

end Arguments

section Copies

variable {inst : Instance} (arguments : Arguments)

/-- The fields are accessed from the aligned addresses below them. -/
theorem copy_cases (inst : Instance) :
    ∃ sBase sOff dBase dOff,
      Aligned inst sBase sOff arguments.src ∧
      Aligned inst dBase dOff arguments.dest ∧
      ∀ memory, arguments.copy inst memory =
        if arguments.size ≤ inst.valSize then
          copySmallBitfield inst (BitVec.ofNat 16 sBase) sOff
            (BitVec.ofNat 16 dBase) dOff arguments.size memory
        else
          copyLargeBitfield inst (BitVec.ofNat 16 sBase) sOff
            (BitVec.ofNat 16 dBase) dOff arguments.size memory := by
  refine ⟨_, _, _, _,
    aligned_of_address inst arguments.srcAddress arguments.srcOffset.isLt,
    aligned_of_address inst arguments.destAddress arguments.destOffset.isLt,
    ?_⟩
  intro memory
  rw [Arguments.copy, copyBitfield]
  simp only [alignedAddress, adjustedOffset]

theorem relocates_copy (natural : inst.Natural) (memory : Memory) :
    Relocates inst.order (moved arguments.src arguments.dest arguments.size)
      memory.contents (arguments.copy inst memory).contents := by
  obtain ⟨sBase, sOff, dBase, dOff, source, dest, copy⟩ :=
    copy_cases arguments inst
  rw [copy]
  split
  · rename_i small
    exact relocates_small_of_natural natural source dest small
      arguments.destInMemory memory
  · rename_i large
    exact relocates_copyLargeBitfield natural source dest (not_le.mp large)
      arguments.srcInMemory arguments.destInMemory arguments.forward memory

theorem accesses_copy (positive : 0 < arguments.size) (memory : Memory) :
    Accesses (ValsWithBits inst arguments.HasBit) memory
      (arguments.copy inst memory) := by
  obtain ⟨sBase, sOff, dBase, dOff, source, dest, copy⟩ :=
    copy_cases arguments inst
  have sCovers : ∀ k, arguments.src ≤ k →
      k < arguments.src + arguments.size → arguments.HasBit k :=
    fun k lower upper => Or.inl ⟨lower, upper⟩
  have dCovers : ∀ k, arguments.dest ≤ k →
      k < arguments.dest + arguments.size → arguments.HasBit k :=
    fun k lower upper => Or.inr ⟨lower, upper⟩
  rw [copy]
  split
  · exact accesses_copySmallBitfield source dest positive
      arguments.srcInMemory arguments.destInMemory sCovers dCovers memory
  · rename_i large
    exact accesses_copyLargeBitfield source dest (not_le.mp large)
      arguments.srcInMemory arguments.destInMemory sCovers dCovers memory

end Copies

/-- Every instance for the order of its memory moves the bits, for every memory
and field. -/
theorem movesBits {inst : Instance} (natural : inst.Natural)
    (arguments : Arguments) (memory : Memory) :
    arguments.MovesBits inst memory (arguments.copy inst memory) := by
  have relocates := relocates_copy arguments natural memory
  have sBound : arguments.src + arguments.size ≤ 8 * memorySize :=
    arguments.srcInMemory
  have dBound : arguments.dest + arguments.size ≤ 8 * memorySize :=
    arguments.destInMemory
  refine ⟨?_, ?_, fun positive => accesses_copy arguments positive memory⟩
  · intro i below
    rw [relocates _ (by simp only [memorySize] at dBound; omega),
      moved_of_inside (by omega) (by omega)]
    congr 1
    omega
  · intro k inMemory outside
    rw [relocates k inMemory, moved_of_outside (by omega)]

/-- 16-bit `Val`s in big-endian memory. -/
def bigWords : Instance where
  valBytes := 2
  allowed := by decide
  endian := .highOrderFirst
  order := .big

/-- A field of 40 bits that is moved down by three bits. -/
def overlappingArguments : Arguments where
  srcAddress := 0x201#16
  srcOffset := ⟨6, by decide⟩
  destAddress := 0x201#16
  destOffset := ⟨3, by decide⟩
  size := 40
  srcInMemory := by decide
  destInMemory := by decide
  forward := by decide

theorem movesBits_overlapping :
    overlappingArguments.MovesBits bigWords (fresh fun _ => 0x5a)
      (overlappingArguments.copy bigWords (fresh fun _ => 0x5a)) :=
  movesBits (show bigWords.Natural from rfl) overlappingArguments _

end BitfieldUtils

end AdacHybridMsp430
