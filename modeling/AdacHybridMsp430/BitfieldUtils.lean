import AdacHybridMsp430.BitMoves
import AdacHybridMsp430.RuntimeSystem
import Mathlib.Data.BitVec

/-!
# Copies of bit fields

The generic package `System.Bitfield_Utils.G`.  A field of up to `Val'Size`
bits is taken out of a pair of `Val`s by shifts and put into another pair;
larger fields are copied in such steps.  Every step is a move of bits, from and
to places that depend on the formal `Endian` and on the byte order of the
memory.
-/

namespace AdacHybridMsp430

namespace BitfieldUtils

open ByteMemory BitMoves Target

/-- `Little : constant Bit_Order := Low_Order_First` and its sibling. -/
def bitOrder : ByteOrder → BitOrder
  | .little => .lowOrderFirst
  | .big => .highOrderFirst

/-- An instance of `G`, with the byte order of the memory that it runs on. -/
structure Instance where
  valBytes : ℕ
  allowed : valBytes = 1 ∨ valBytes = 2 ∨ valBytes = 4
  endian : BitOrder
  order : ByteOrder

/-- `Val'Size`. -/
def Instance.valSize (inst : Instance) : ℕ := 8 * inst.valBytes

abbrev Instance.Val (inst : Instance) := BitVec (8 * inst.valBytes)
abbrev Instance.Val2 (inst : Instance) := BitVec (8 * (2 * inst.valBytes))

variable (inst : Instance)

def getVal2 (srcAddress : Address) (srcOffset size : ℕ) (memory : Memory) :
    inst.Val2 × Memory :=
  if srcOffset + size ≤ inst.valSize then
    let (result, memory) := load inst.order srcAddress inst.valBytes memory
    (match inst.endian with
      | .lowOrderFirst => result.setWidth _
      | .highOrderFirst => result.setWidth _ <<< inst.valSize, memory)
  else
    load inst.order srcAddress (2 * inst.valBytes) memory

def setVal2 (destAddress : Address) (destOffset : ℕ) (v : inst.Val2)
    (size : ℕ) (memory : Memory) : Memory :=
  if destOffset + size ≤ inst.valSize then
    let dest : inst.Val :=
      match inst.endian with
      | .lowOrderFirst => v.setWidth _
      | .highOrderFirst => (v >>> inst.valSize).setWidth _
    store inst.order destAddress dest memory
  else
    store inst.order destAddress v memory

/-- The high order bits of the result are zero. -/
def getBitfield (src : inst.Val2) (srcOffset size : ℕ) : inst.Val :=
  let lShiftAmount : ℕ :=
    match inst.endian with
    | .lowOrderFirst => 2 * inst.valSize - (srcOffset + size)
    | .highOrderFirst => srcOffset
  let temp1 : inst.Val2 := src <<< lShiftAmount
  let temp2 : inst.Val2 := temp1 >>> (2 * inst.valSize - size)
  temp2.setWidth _

def setBitfield (srcValue : inst.Val) (dest : inst.Val2)
    (destOffset size : ℕ) : inst.Val2 :=
  let lShiftAmount : ℕ :=
    match inst.endian with
    | .lowOrderFirst => destOffset
    | .highOrderFirst => 2 * inst.valSize - (destOffset + size)
  let mask : inst.Val2 := ((1 : inst.Val2) <<< size - 1) <<< lShiftAmount
  let temp1 : inst.Val2 := dest &&& ~~~mask
  let temp2 : inst.Val2 := srcValue.setWidth _ <<< lShiftAmount
  temp1 ||| temp2

/-- The procedure `Set_Bitfield`. -/
def setBitfieldAt (srcValue : inst.Val) (destAddress : Address)
    (destOffset size : ℕ) (memory : Memory) : Memory :=
  let (oldDest, memory) := getVal2 inst destAddress destOffset size memory
  let newDest := setBitfield inst srcValue oldDest destOffset size
  setVal2 inst destAddress destOffset newDest size memory

def copySmallBitfield (srcAddress : Address) (srcOffset : ℕ)
    (destAddress : Address) (destOffset size : ℕ) (memory : Memory) :
    Memory :=
  let (src, memory) := getVal2 inst srcAddress srcOffset size memory
  let v := getBitfield inst src srcOffset size
  setBitfieldAt inst v destAddress destOffset size memory

/-- The variables of `Copy_Large_Bitfield` when the destination is aligned. -/
structure Cursor where
  sz : ℕ
  sAddr : Address
  sOff : ℕ
  dAddr : Address

def Instance.valBytesAddress : Address := BitVec.ofNat 16 inst.valBytes

/-- Step 1. -/
def copyInitial (sz : ℕ) (sAddr : Address) (sOff : ℕ) (dAddr : Address)
    (dOff : ℕ) (memory : Memory) : Cursor × Memory :=
  if dOff ≠ 0 then
    let initialSize := inst.valSize - dOff
    let (initialVal2, memory) := getVal2 inst sAddr sOff initialSize memory
    let initialVal := getBitfield inst initialVal2 sOff initialSize
    let memory :=
      setBitfieldAt inst initialVal dAddr dOff initialSize memory
    let newSOff := sOff + initialSize
    ({ sz := sz - initialSize
       sAddr :=
         if newSOff > inst.valSize - 1 then sAddr + inst.valBytesAddress
         else sAddr
       sOff :=
         if newSOff > inst.valSize - 1 then newSOff - inst.valSize
         else newSOff
       dAddr := dAddr + inst.valBytesAddress }, memory)
  else
    ({ sz := sz, sAddr := sAddr, sOff := sOff, dAddr := dAddr }, memory)

/-- The body of the loop of step 2. -/
def copyVal (sOff : ℕ) (destComp sAddr : Address) (memory : Memory) :
    Memory :=
  let (srcV2, memory) := getVal2 inst sAddr sOff inst.valSize memory
  let fullV := getBitfield inst srcV2 sOff inst.valSize
  store inst.order destComp fullV memory

/-- Step 2, the loop over the components of `Dest_Arr`. -/
def copyVals (sOff : ℕ) : ℕ → (destComp sAddr : Address) → Memory →
    Address × Memory
  | 0, _, sAddr, memory => (sAddr, memory)
  | length + 1, destComp, sAddr, memory =>
      copyVals sOff length (destComp + inst.valBytesAddress)
        (sAddr + inst.valBytesAddress) (copyVal inst sOff destComp sAddr memory)

/-- Step 3. -/
def copyFinal (sz : ℕ) (sAddr : Address) (sOff : ℕ) (dAddr : Address)
    (memory : Memory) : Memory :=
  if sz ≠ 0 then
    let (finalVal2, memory) := getVal2 inst sAddr sOff sz memory
    let finalVal := getBitfield inst finalVal2 sOff sz
    setBitfieldAt inst finalVal dAddr 0 sz memory
  else
    memory

/-- Steps 2 and 3. -/
def copyAligned (cursor : Cursor) (memory : Memory) : Memory :=
  let length := cursor.sz / inst.valSize
  let (sAddr, memory) :=
    copyVals inst cursor.sOff length cursor.dAddr cursor.sAddr memory
  copyFinal inst (cursor.sz % inst.valSize) sAddr cursor.sOff
    (cursor.dAddr + BitVec.ofNat 16 length * inst.valBytesAddress) memory

def copyLargeBitfield (srcAddress : Address) (srcOffset : ℕ)
    (destAddress : Address) (destOffset size : ℕ) (memory : Memory) :
    Memory :=
  let (cursor, memory) :=
    copyInitial inst size srcAddress srcOffset destAddress destOffset memory
  copyAligned inst cursor memory

def copyBitfield (srcAddress : Address) (srcOffset : ℕ)
    (destAddress : Address) (destOffset size : ℕ) (memory : Memory) :
    Memory :=
  let srcAdjust := srcAddress % inst.valBytesAddress
  let alSrcAddress := srcAddress - srcAdjust
  let alSrcOffset := srcOffset +
    (srcAdjust * BitVec.ofNat 16 storageUnit).toNat
  let destAdjust := destAddress % inst.valBytesAddress
  let alDestAddress := destAddress - destAdjust
  let alDestOffset := destOffset +
    (destAdjust * BitVec.ofNat 16 storageUnit).toNat
  if size ≤ inst.valSize then
    copySmallBitfield inst alSrcAddress alSrcOffset alDestAddress
      alDestOffset size memory
  else
    copyLargeBitfield inst alSrcAddress alSrcOffset alDestAddress
      alDestOffset size memory

/-- Whether `Endian` is the bit order of the memory. -/
def Instance.Natural : Prop := inst.endian = bitOrder inst.order

instance : Decidable inst.Natural :=
  inferInstanceAs (Decidable (inst.endian = bitOrder inst.order))

/-- Where a field begins in a pair of `Val`s, in the numbering of memory. -/
def lead (offset size : ℕ) : ℕ :=
  if inst.Natural then offset else 2 * inst.valSize - (offset + size)

/-- Where the bits of memory are in the pair: a single `Val` that was loaded
for the other order is in the second half. -/
def place (offset size : ℕ) : ℕ :=
  if offset + size ≤ inst.valSize ∧ ¬inst.Natural then inst.valSize else 0

/-- How many bits a pair has in memory. -/
def windowSize (offset size : ℕ) : ℕ :=
  if offset + size ≤ inst.valSize then inst.valSize else 2 * inst.valSize

/-- Bit `j` of a field of `size` bits in the low end of a `Val`. -/
def fieldBit (size : ℕ) (value : inst.Val) (j : ℕ) : Bool :=
  match inst.order with
  | .little => value.getLsbD j
  | .big => value.getLsbD (size - 1 - j)

theorem eight_mul_valBytes : 8 * inst.valBytes = inst.valSize := rfl

theorem bit_getVal2 (base : ℕ) {offset size i : ℕ} (memory : Memory)
    (hi : i < windowSize inst offset size) :
    inst.order.bit
        (getVal2 inst (BitVec.ofNat 16 base) offset size memory).1
        (place inst offset size + i) =
      bitAt inst.order memory.contents (8 * base + i) := by
  by_cases fits : offset + size ≤ inst.valSize
  · rw [windowSize, if_pos fits] at hi
    rw [← bit_readWord_ofNat inst.order memory.contents base hi, getVal2,
      if_pos fits]
    simp only [Instance.valSize] at hi fits
    cases order : inst.order <;> cases endian : inst.endian <;>
      simp only [place, Instance.Natural, Instance.valSize, bitOrder, order,
        endian, fits, ByteOrder.bit, load_fst, reduceCtorEq, not_true_eq_false,
        not_false_eq_true, and_true, and_false, if_true, if_false, Nat.zero_add,
        BitVec.getLsbD_setWidth, BitVec.getLsbD_shiftLeft,
        BitVec.getMsbD_setWidth, BitVec.getMsbD_shiftLeft]
    all_goals grind
  · rw [windowSize, if_neg fits, Instance.valSize] at hi
    rw [getVal2, if_neg fits, place, if_neg (by simp [fits]), Nat.zero_add]
    exact bit_readWord_ofNat inst.order memory.contents base (by omega)

@[simp]
theorem contents_getVal2 (srcAddress : Address) (offset size : ℕ)
    (memory : Memory) :
    (getVal2 inst srcAddress offset size memory).2.contents =
      memory.contents := by
  unfold getVal2
  split <;> rfl

theorem bitAt_setVal2 {base offset size : ℕ} (v : inst.Val2)
    (memory : Memory)
    (inMemory : 8 * base + windowSize inst offset size ≤ 8 * memorySize)
    {k : ℕ} (hk : k < 8 * memorySize) :
    bitAt inst.order
        (setVal2 inst (BitVec.ofNat 16 base) offset v size memory).contents k =
      if 8 * base ≤ k ∧ k < 8 * base + windowSize inst offset size then
        inst.order.bit v (place inst offset size + (k - 8 * base))
      else
        bitAt inst.order memory.contents k := by
  by_cases fits : offset + size ≤ inst.valSize
  · rw [windowSize, if_pos fits, Instance.valSize] at inMemory ⊢
    rw [setVal2, if_pos fits, contents_store,
      bitAt_writeWord inst.order _ _ (by simp only [memorySize] at inMemory; omega)
        hk]
    simp only [Instance.valSize] at fits
    rw [Nat.mul_add]
    split
    · rename_i inside
      have inVal : k - 8 * base < 8 * inst.valBytes := by
        omega
      generalize k - 8 * base = i at inVal
      cases order : inst.order <;> cases endian : inst.endian <;>
        simp only [place, Instance.Natural, Instance.valSize, bitOrder, order,
          endian, fits, ByteOrder.bit, reduceCtorEq, not_true_eq_false,
          not_false_eq_true, and_true, and_false, if_true, if_false,
          Nat.zero_add, BitVec.getLsbD_setWidth, BitVec.getLsbD_ushiftRight,
          BitVec.getMsbD_setWidth, BitVec.getMsbD_ushiftRight, inVal,
          decide_true, Bool.true_and]
      all_goals grind
    · rfl
  · rw [windowSize, if_neg fits, Instance.valSize] at inMemory ⊢
    have atStart : place inst offset size = 0 :=
      if_neg fun inFirst => fits inFirst.1
    rw [setVal2, if_neg fits, contents_store, atStart, Nat.zero_add,
      bitAt_writeWord inst.order _ _ (by simp only [memorySize] at inMemory; omega)
        hk]
    have extent : 8 * (base + 2 * inst.valBytes) =
        8 * base + 2 * (8 * inst.valBytes) := by
      omega
    rw [extent]

/-- The field comes out in the low end of the result, in front of zeros. -/
theorem getLsbD_getBitfield (src : inst.Val2) {offset size : ℕ} (j : ℕ)
    (hOffset : offset < inst.valSize) (hSize : size ≤ inst.valSize) :
    (getBitfield inst src offset size).getLsbD j =
      (decide (j < size) && src.getLsbD
        (match inst.endian with
          | .lowOrderFirst => offset + j
          | .highOrderFirst => 2 * inst.valSize - (offset + size) + j)) := by
  simp only [Instance.valSize] at hOffset hSize
  by_cases hj : j < size
  · cases endian : inst.endian <;>
      simp only [getBitfield, endian, Instance.valSize, hj, decide_true,
        Bool.true_and, BitVec.getLsbD_setWidth, BitVec.getLsbD_ushiftRight,
        BitVec.getLsbD_shiftLeft]
    all_goals grind
  · have beyond : 8 * (2 * inst.valBytes) ≤
        2 * (8 * inst.valBytes) - size + j := by
      omega
    simp only [getBitfield, Instance.valSize, hj, decide_false,
      Bool.false_and, BitVec.getLsbD_setWidth, BitVec.getLsbD_ushiftRight,
      BitVec.getLsbD_of_ge _ _ beyond, Bool.and_false]

theorem fieldBit_getBitfield (src : inst.Val2) {offset size j : ℕ}
    (hOffset : offset < inst.valSize) (hSize : size ≤ inst.valSize)
    (hj : j < size) :
    fieldBit inst size (getBitfield inst src offset size) j =
      inst.order.bit src (lead inst offset size + j) := by
  simp only [fieldBit, getLsbD_getBitfield inst src _ hOffset hSize]
  simp only [Instance.valSize] at hOffset hSize
  cases order : inst.order <;> cases endian : inst.endian <;>
    simp only [ByteOrder.bit, lead, Instance.Natural, bitOrder, order, endian,
      Instance.valSize, reduceCtorEq, if_true, if_false, BitVec.getMsbD]
  all_goals grind

/-- The field goes to the shifted place, if nothing stands above it. -/
theorem getLsbD_setBitfield (value : inst.Val) (dest : inst.Val2)
    {offset size : ℕ} (i : ℕ) (hSize : size ≤ inst.valSize)
    (high : ∀ j, size ≤ j → value.getLsbD j = false)
    (hi : i < 2 * inst.valSize) :
    (setBitfield inst value dest offset size).getLsbD i =
      let shift :=
        match inst.endian with
        | .lowOrderFirst => offset
        | .highOrderFirst => 2 * inst.valSize - (offset + size)
      if shift ≤ i ∧ i < shift + size then value.getLsbD (i - shift)
      else dest.getLsbD i := by
  have proper : size < 8 * (2 * inst.valBytes) := by
    rcases inst.allowed with bytes | bytes | bytes <;>
      simp only [Instance.valSize, bytes] at hSize ⊢ <;> omega
  have inPair : i < 8 * (2 * inst.valBytes) := by
    simp only [Instance.valSize] at hi
    omega
  simp only [setBitfield]
  generalize (match inst.endian with
    | .lowOrderFirst => offset
    | .highOrderFirst => 2 * inst.valSize - (offset + size)) = shift
  simp only [BitVec.getLsbD_or, BitVec.getLsbD_and, BitVec.getLsbD_not,
    BitVec.getLsbD_shiftLeft, BitVec.getLsbD_setWidth, getLsbD_ones proper,
    inPair, decide_true, Bool.true_and]
  by_cases before : i < shift
  · simp [before, show ¬shift ≤ i by omega]
  · by_cases inside : i < shift + size
    · simp [before, inside, show i - shift < size by omega,
        show i - shift < 8 * (2 * inst.valBytes) by omega,
        show shift ≤ i by omega]
    · simp [before, inside, high (i - shift) (by omega),
        show ¬i - shift < size by omega]

theorem bit_setBitfield (value : inst.Val) (dest : inst.Val2)
    {offset size i : ℕ} (hOffset : offset < inst.valSize)
    (hSize : size ≤ inst.valSize)
    (high : ∀ j, size ≤ j → value.getLsbD j = false)
    (hi : i < 2 * inst.valSize) :
    inst.order.bit (setBitfield inst value dest offset size) i =
      if lead inst offset size ≤ i ∧ i < lead inst offset size + size then
        fieldBit inst size value (i - lead inst offset size)
      else
        inst.order.bit dest i := by
  have pair : 8 * (2 * inst.valBytes) = 2 * inst.valSize := by
    rw [Instance.valSize]
    omega
  cases order : inst.order <;> cases endian : inst.endian <;>
    simp only [ByteOrder.bit, lead, Instance.Natural, bitOrder, order, endian,
      reduceCtorEq, if_true, if_false, BitVec.getMsbD, fieldBit, pair]
  · rw [getLsbD_setBitfield inst value dest i hSize high hi, endian]
  · rw [getLsbD_setBitfield inst value dest i hSize high hi, endian]
  all_goals
    rw [getLsbD_setBitfield inst value dest _ hSize high (by omega), endian]
    simp only [hi, decide_true, Bool.true_and]
    grind

/-- Where a field that is accessed at an offset really begins, in bits from the
address of its pair. -/
def start (offset size : ℕ) : ℕ :=
  lead inst offset size - place inst offset size

section Windows

variable {inst} {offset size : ℕ}

theorem place_add_windowSize_le :
    place inst offset size + windowSize inst offset size ≤
      2 * inst.valSize := by
  rw [place, windowSize]
  split <;> split <;> omega

theorem place_add_start (hOffset : offset < inst.valSize)
    (hSize : size ≤ inst.valSize) :
    place inst offset size + start inst offset size = lead inst offset size := by
  have le : place inst offset size ≤ lead inst offset size := by
    by_cases natural : inst.Natural <;>
      by_cases fits : offset + size ≤ inst.valSize <;>
      simp [place, lead, natural, fits]
    omega
  unfold start
  omega

theorem start_add_size_le (hOffset : offset < inst.valSize)
    (hSize : size ≤ inst.valSize) :
    start inst offset size + size ≤ windowSize inst offset size := by
  by_cases natural : inst.Natural <;>
    by_cases fits : offset + size ≤ inst.valSize <;>
    simp only [start, place, lead, windowSize, natural, fits, not_true_eq_false,
      not_false_eq_true, and_true, and_false, if_true, if_false] <;>
    omega

end Windows

/-- A small field is moved from where the source really begins to where the
destination really begins. -/
theorem relocates_copySmallBitfield (src : ℕ) {dest srcOffset destOffset : ℕ}
    {size : ℕ} (memory : Memory) (hSrc : srcOffset < inst.valSize)
    (hDest : destOffset < inst.valSize) (hSize : size ≤ inst.valSize)
    (inMemory :
      8 * dest + windowSize inst destOffset size ≤ 8 * memorySize) :
    Relocates inst.order
      (moved (8 * src + start inst srcOffset size)
        (8 * dest + start inst destOffset size) size)
      memory.contents
      (copySmallBitfield inst (BitVec.ofNat 16 src) srcOffset
        (BitVec.ofNat 16 dest) destOffset size memory).contents := by
  intro k hk
  have srcStart := place_add_start hSrc hSize
  have destStart := place_add_start hDest hSize
  have srcEnd := start_add_size_le hSrc hSize
  have destEnd := start_add_size_le hDest hSize
  have pair : place inst destOffset size + windowSize inst destOffset size ≤
      2 * inst.valSize := place_add_windowSize_le
  simp only [copySmallBitfield, setBitfieldAt]
  rw [bitAt_setVal2 inst _ _ inMemory hk]
  by_cases inWindow : 8 * dest ≤ k ∧
      k < 8 * dest + windowSize inst destOffset size
  · rw [if_pos inWindow, bit_setBitfield inst _ _ hDest hSize
      (fun j beyond => by
        rw [getLsbD_getBitfield inst _ j hSrc hSize]
        simp [show ¬j < size by omega])
      (by omega)]
    by_cases inField : 8 * dest + start inst destOffset size ≤ k ∧
        k < 8 * dest + start inst destOffset size + size
    · rw [if_pos (by omega), fieldBit_getBitfield inst _ hSrc hSize (by omega),
        moved_of_inside inField.1 inField.2, ← srcStart, Nat.add_assoc,
        bit_getVal2 inst src memory (by omega)]
      congr 1
      omega
    · rw [if_neg (by omega), moved_of_outside inField,
        bit_getVal2 inst dest _ (by omega), contents_getVal2]
      congr 1
      omega
  · rw [if_neg inWindow, moved_of_outside (by omega), contents_getVal2,
      contents_getVal2]

theorem relocates_copyVal (src : ℕ) {dest sOff : ℕ} (memory : Memory)
    (hSrc : sOff < inst.valSize)
    (inMemory : 8 * dest + inst.valSize ≤ 8 * memorySize) :
    Relocates inst.order
      (moved (8 * src + start inst sOff inst.valSize) (8 * dest) inst.valSize)
      memory.contents
      (copyVal inst sOff (BitVec.ofNat 16 dest) (BitVec.ofNat 16 src)
        memory).contents := by
  intro k hk
  have srcStart := place_add_start hSrc (le_refl inst.valSize)
  have srcEnd := start_add_size_le hSrc (le_refl inst.valSize)
  have extent : 8 * (dest + inst.valBytes) = 8 * dest + inst.valSize := by
    rw [Nat.mul_add, eight_mul_valBytes]
  simp only [copyVal, contents_store, contents_getVal2]
  rw [bitAt_writeWord inst.order _ _
    (by simp only [memorySize] at inMemory; omega) hk, extent]
  by_cases inVal : 8 * dest ≤ k ∧ k < 8 * dest + inst.valSize
  · have field : ∀ value : inst.Val,
        inst.order.bit value (k - 8 * dest) =
          fieldBit inst inst.valSize value (k - 8 * dest) := by
      intro value
      cases order : inst.order with
      | little => simp only [ByteOrder.bit, fieldBit, order]
      | big =>
          simp only [ByteOrder.bit, fieldBit, order, BitVec.getMsbD,
            eight_mul_valBytes]
          simp only [show k - 8 * dest < inst.valSize by omega, decide_true,
            Bool.true_and]
    rw [if_pos inVal, field,
      fieldBit_getBitfield inst _ hSrc le_rfl (by omega),
      moved_of_inside inVal.1 inVal.2, ← srcStart, Nat.add_assoc,
      bit_getVal2 inst src memory (by omega), Nat.add_assoc]
  · rw [if_neg inVal, moved_of_outside inVal]

theorem nextVal (base : ℕ) :
    BitVec.ofNat 16 base + inst.valBytesAddress =
      BitVec.ofNat 16 (base + inst.valBytes) :=
  (BitVec.ofNat_add base inst.valBytes).symm

theorem copyVals_fst (sOff length src dest : ℕ) (memory : Memory) :
    (copyVals inst sOff length (BitVec.ofNat 16 dest) (BitVec.ofNat 16 src)
        memory).1 =
      BitVec.ofNat 16 (src + length * inst.valBytes) := by
  induction length generalizing src dest memory with
  | zero => simp [copyVals]
  | succ length ih =>
      simp only [copyVals, nextVal, ih]
      congr 1
      rw [Nat.succ_mul length]
      omega

/-- The loop changes no bit outside the components that it goes through. -/
theorem bitAt_copyVals_of_outside (sAddr : Address)
    {sOff length dest k : ℕ} (memory : Memory) (hSrc : sOff < inst.valSize)
    (inMemory : 8 * dest + length * inst.valSize ≤ 8 * memorySize)
    (hk : k < 8 * memorySize)
    (outside : k < 8 * dest ∨ 8 * dest + length * inst.valSize ≤ k) :
    bitAt inst.order
        (copyVals inst sOff length (BitVec.ofNat 16 dest) sAddr
          memory).2.contents k =
      bitAt inst.order memory.contents k := by
  induction length generalizing sAddr dest memory with
  | zero => rfl
  | succ length ih =>
      rw [Nat.succ_mul length] at inMemory outside
      have next : 8 * (dest + inst.valBytes) = 8 * dest + inst.valSize := by
        rw [Nat.mul_add, eight_mul_valBytes]
      have stored := relocates_copyVal inst sAddr.toNat memory hSrc
        (show 8 * dest + inst.valSize ≤ 8 * memorySize by omega) k hk
      rw [BitVec.ofNat_toNat, BitVec.setWidth_eq] at stored
      simp only [copyVals, nextVal]
      rw [ih _ _ (by omega) (by omega), stored, moved_of_outside (by omega)]

/-- The loop moves its components at once, if it does not overwrite the source
on the way. -/
theorem relocates_copyVals {src dest sOff length : ℕ} (memory : Memory)
    (hSrc : sOff < inst.valSize)
    (srcInMemory : 8 * src + start inst sOff inst.valSize +
      length * inst.valSize ≤ 8 * memorySize)
    (destInMemory : 8 * dest + length * inst.valSize ≤ 8 * memorySize)
    (forward : 8 * dest ≤ 8 * src + start inst sOff inst.valSize ∨
      8 * src + start inst sOff inst.valSize + length * inst.valSize ≤
        8 * dest) :
    Relocates inst.order
      (moved (8 * src + start inst sOff inst.valSize) (8 * dest)
        (length * inst.valSize))
      memory.contents
      (copyVals inst sOff length (BitVec.ofNat 16 dest) (BitVec.ofNat 16 src)
        memory).2.contents := by
  induction length generalizing src dest memory with
  | zero =>
      intro k _
      rw [Nat.zero_mul, moved_zero]
      rfl
  | succ length ih =>
      rw [Nat.succ_mul length] at srcInMemory destInMemory forward ⊢
      have nextDest : 8 * (dest + inst.valBytes) = 8 * dest + inst.valSize := by
        rw [Nat.mul_add, eight_mul_valBytes]
      have nextSrc : 8 * (src + inst.valBytes) + start inst sOff inst.valSize =
          8 * src + start inst sOff inst.valSize + inst.valSize := by
        rw [Nat.mul_add, eight_mul_valBytes]
        omega
      simp only [copyVals, nextVal]
      have first := relocates_copyVal inst src memory hSrc
        (show 8 * dest + inst.valSize ≤ 8 * memorySize by omega)
      have rest := ih
        (copyVal inst sOff (BitVec.ofNat 16 dest) (BitVec.ofNat 16 src) memory)
        (show 8 * (src + inst.valBytes) + start inst sOff inst.valSize +
          length * inst.valSize ≤ 8 * memorySize by omega)
        (show 8 * (dest + inst.valBytes) + length * inst.valSize ≤
          8 * memorySize by omega)
        (by omega)
      rw [nextSrc, nextDest] at rest
      refine (first.trans rest fun k hk => moved_lt ?_ hk).congr ?_
      · simp only [memorySize] at srcInMemory
        omega
      · intro k _
        rw [moved_moved (by omega), Nat.add_comm inst.valSize]

theorem addressAfter (base length : ℕ) :
    BitVec.ofNat 16 base + BitVec.ofNat 16 length * inst.valBytesAddress =
      BitVec.ofNat 16 (base + length * inst.valBytes) := by
  rw [Instance.valBytesAddress, BitVec.ofNat_add, BitVec.ofNat_mul]

/-- Step 1 is the copy of a small field. -/
theorem copyInitial_of_ne {sz sOff dOff : ℕ} (sAddr dAddr : Address)
    (memory : Memory) (misaligned : dOff ≠ 0) :
    (copyInitial inst sz sAddr sOff dAddr dOff memory).2 =
      copySmallBitfield inst sAddr sOff dAddr dOff (inst.valSize - dOff)
        memory := by
  rw [copyInitial, if_pos misaligned]
  rfl

theorem copyLargeBitfield_zero (srcAddress destAddress : Address)
    (srcOffset size : ℕ) (memory : Memory) :
    copyLargeBitfield inst srcAddress srcOffset destAddress 0 size memory =
      copyAligned inst
        { sz := size, sAddr := srcAddress, sOff := srcOffset,
          dAddr := destAddress } memory :=
  rfl

/-- After step 1 the destination is the next word. -/
theorem cursor_of_ne {sOff dOff : ℕ} (sz base : ℕ) (sAddr : Address)
    (memory : Memory) (misaligned : dOff ≠ 0) (hSrc : sOff < inst.valSize) :
    let cursor := (copyInitial inst sz sAddr sOff (BitVec.ofNat 16 base) dOff
      memory).1
    cursor.sz = sz - (inst.valSize - dOff) ∧ cursor.sOff < inst.valSize ∧
      cursor.dAddr = BitVec.ofNat 16 (base + inst.valBytes) := by
  rw [copyInitial, if_pos misaligned]
  refine ⟨rfl, ?_, nextVal inst base⟩
  dsimp only
  split <;> omega

/-- Step 3 is the copy of a small field. -/
theorem copyFinal_of_ne {sz sOff : ℕ} (sAddr dAddr : Address)
    (memory : Memory) (rest : sz ≠ 0) :
    copyFinal inst sz sAddr sOff dAddr memory =
      copySmallBitfield inst sAddr sOff dAddr 0 sz memory := by
  rw [copyFinal, if_pos rest]
  rfl

theorem toNat_valBytesAddress : inst.valBytesAddress.toNat = inst.valBytes := by
  rcases inst.allowed with bytes | bytes | bytes <;>
    simp [Instance.valBytesAddress, bytes]

/-- The aligned address below an address. -/
theorem alignedAddress (address : Address) :
    address - address % inst.valBytesAddress =
      BitVec.ofNat 16 (address.toNat - address.toNat % inst.valBytes) := by
  apply BitVec.eq_of_toNat_eq
  have le : address % inst.valBytesAddress ≤ address := by
    rw [BitVec.le_def, BitVec.toNat_umod]
    exact Nat.mod_le _ _
  have bound := address.isLt
  rw [BitVec.toNat_sub_of_le le, BitVec.toNat_umod, toNat_valBytesAddress,
    BitVec.toNat_ofNat]
  exact (Nat.mod_eq_of_lt (by omega)).symm

theorem adjustedOffset (address : Address) :
    (address % inst.valBytesAddress * BitVec.ofNat 16 storageUnit).toNat =
      8 * (address.toNat % inst.valBytes) := by
  have lt : address.toNat % inst.valBytes < 4 := by
    rcases inst.allowed with bytes | bytes | bytes <;> rw [bytes] <;> omega
  rw [BitVec.toNat_mul, BitVec.toNat_umod, toNat_valBytesAddress, storageUnit,
    BitVec.toNat_ofNat, Nat.mul_comm]
  exact Nat.mod_eq_of_lt (by omega)

end BitfieldUtils

end AdacHybridMsp430
