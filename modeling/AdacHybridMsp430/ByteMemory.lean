import Mathlib.Data.Nat.Notation
import Mathlib.Tactic.Choose
import Mathlib.Tactic.IntervalCases

/-!
# Byte-addressed memory, bit by bit

Words of several bytes are loaded and stored in either byte order.  Each order
has the bit numbering that makes a word an interval of the bits of memory, so
that loads and stores are described by the bits at given bit addresses.  A
memory also keeps a record of its accesses.
-/

namespace ByteMemory

inductive ByteOrder
  | little
  | big
deriving DecidableEq

/-- Bit `i` of a word, in the numbering that agrees with the byte order. -/
def ByteOrder.bit {width : ℕ} (order : ByteOrder) (word : BitVec width)
    (i : ℕ) : Bool :=
  match order with
  | .little => word.getLsbD i
  | .big => word.getMsbD i

/-- Byte `j` of a word, in the order of the addresses. -/
def ByteOrder.byte {count : ℕ} (order : ByteOrder) (word : BitVec (8 * count))
    (j : ℕ) : BitVec 8 :=
  match order with
  | .little => word.extractLsb' (8 * j) 8
  | .big => word.extractLsb' (8 * (count - 1 - j)) 8

variable {width : ℕ}

/-- What the bytes of memory hold. -/
abbrev Contents (width : ℕ) := BitVec width → BitVec 8

def readWord (order : ByteOrder) (contents : Contents width) :
    BitVec width → (count : ℕ) → BitVec (8 * count)
  | _, 0 => 0
  | address, count + 1 =>
      match order with
      | .little => readWord order contents (address + 1) count ++
          contents address
      | .big => readWord order contents address count ++
          contents (address + BitVec.ofNat width count)

def writeWord (order : ByteOrder) (contents : Contents width)
    (address : BitVec width) {count : ℕ} (word : BitVec (8 * count)) :
    Contents width :=
  fun other =>
    if (other - address).toNat < count then
      order.byte word (other - address).toNat
    else
      contents other

/-- A load or a store of some bytes. -/
structure Access (width : ℕ) where
  isStore : Bool
  address : BitVec width
  count : ℕ
deriving DecidableEq

/-- The accesses of a memory are recorded newest first. -/
structure Memory (width : ℕ) where
  contents : Contents width
  accesses : List (Access width)

/-- A memory that nothing has accessed yet. -/
def fresh (contents : Contents width) : Memory width where
  contents := contents
  accesses := []

def load (order : ByteOrder) (address : BitVec width) (count : ℕ)
    (memory : Memory width) : BitVec (8 * count) × Memory width :=
  (readWord order memory.contents address count,
    { memory with accesses := ⟨false, address, count⟩ :: memory.accesses })

def store (order : ByteOrder) (address : BitVec width) {count : ℕ}
    (word : BitVec (8 * count)) (memory : Memory width) : Memory width where
  contents := writeWord order memory.contents address word
  accesses := ⟨true, address, count⟩ :: memory.accesses

section Loading

variable (order : ByteOrder) (address : BitVec width) (count : ℕ)
  (memory : Memory width)

@[simp]
theorem load_fst :
    (load order address count memory).1 =
      readWord order memory.contents address count := rfl

@[simp]
theorem contents_load :
    (load order address count memory).2.contents = memory.contents := rfl

@[simp]
theorem accesses_load :
    (load order address count memory).2.accesses =
      ⟨false, address, count⟩ :: memory.accesses := rfl

@[simp]
theorem contents_store (word : BitVec (8 * count)) :
    (store order address word memory).contents =
      writeWord order memory.contents address word := rfl

@[simp]
theorem accesses_store (word : BitVec (8 * count)) :
    (store order address word memory).accesses =
      ⟨true, address, count⟩ :: memory.accesses := rfl

@[simp]
theorem contents_fresh (contents : Contents width) :
    (fresh contents).contents = contents := rfl

end Loading

/-- The new accesses of a memory are all allowed. -/
def Accesses (allowed : Access width → Prop) (before after : Memory width) :
    Prop :=
  ∃ accesses, after.accesses = accesses ++ before.accesses ∧
    ∀ access ∈ accesses, allowed access

section Accesses

variable {allowed larger : Access width → Prop}
variable {before middle after : Memory width}

theorem Accesses.refl (memory : Memory width) :
    Accesses allowed memory memory :=
  ⟨[], rfl, by simp⟩

theorem Accesses.trans (first : Accesses allowed before middle)
    (second : Accesses allowed middle after) : Accesses allowed before after := by
  obtain ⟨early, recorded, areEarly⟩ := first
  obtain ⟨late, recorded', areLate⟩ := second
  refine ⟨late ++ early, ?_, ?_⟩
  · rw [recorded', recorded, List.append_assoc]
  · intro access member
    rcases List.mem_append.mp member with isLate | isEarly
    · exact areLate access isLate
    · exact areEarly access isEarly

theorem Accesses.mono (accesses : Accesses allowed before after)
    (within : ∀ access, allowed access → larger access) :
    Accesses larger before after := by
  obtain ⟨added, recorded, areAllowed⟩ := accesses
  refine ⟨added, recorded, ?_⟩
  intro access member
  exact within access (areAllowed access member)

theorem accesses_of_cons {access : Access width} (isAllowed : allowed access)
    (recorded : after.accesses = access :: before.accesses) :
    Accesses allowed before after := by
  refine ⟨[access], recorded, ?_⟩
  intro other member
  rwa [List.mem_singleton.mp member]

end Accesses

/-- The bit at a bit address. -/
def bitAt (order : ByteOrder) (contents : Contents width) (k : ℕ) : Bool :=
  order.bit (contents (BitVec.ofNat width (k / 8))) (k % 8)

theorem bitAt_byte (order : ByteOrder) (contents : Contents width) (byte : ℕ)
    {i : ℕ} (hi : i < 8) :
    bitAt order contents (8 * byte + i) =
      order.bit (contents (BitVec.ofNat width byte)) i := by
  have quotient : (8 * byte + i) / 8 = byte := by omega
  have remainder : (8 * byte + i) % 8 = i := by omega
  rw [bitAt, quotient, remainder]

theorem byte_eq_of_bit_eq {order : ByteOrder} {byte other : BitVec 8}
    (eq : ∀ i < 8, order.bit byte i = order.bit other i) : byte = other := by
  cases order with
  | little => exact BitVec.eq_of_getLsbD_eq eq
  | big => exact BitVec.eq_of_getMsbD_eq eq

/-- An access touches nothing but the `size` bytes from `first` on. -/
def Access.Inside (access : Access width) (first : BitVec width) (size : ℕ) :
    Prop :=
  first.toNat ≤ access.address.toNat ∧
    access.address.toNat + access.count ≤ first.toNat + size

theorem Access.Inside.mono {access : Access width} {first : BitVec width}
    {size larger : ℕ} (inside : access.Inside first size)
    (le : size ≤ larger) : access.Inside first larger := by
  simp only [Access.Inside] at inside ⊢
  omega

theorem add_ofNat (first : BitVec width) (offset : ℕ) :
    first + BitVec.ofNat width offset =
      BitVec.ofNat width (first.toNat + offset) := by
  rw [BitVec.ofNat_add, BitVec.ofNat_toNat, BitVec.setWidth_eq]

theorem inside_add {first : BitVec width} {offset count : ℕ} (isStore : Bool)
    (countPos : 0 < count)
    (inMemory : first.toNat + offset + count ≤ 2 ^ width) :
    (⟨isStore, first + BitVec.ofNat width offset, count⟩ :
      Access width).Inside first (offset + count) := by
  have address : (first + BitVec.ofNat width offset).toNat =
      first.toNat + offset := by
    rw [BitVec.toNat_add, BitVec.toNat_ofNat, Nat.add_mod_mod,
      Nat.mod_eq_of_lt (by omega)]
  simp only [Access.Inside, address]
  omega

theorem bit_byte (order : ByteOrder) {count : ℕ} (word : BitVec (8 * count))
    {i j : ℕ} (hi : i < 8) (hj : j < count) :
    order.bit (order.byte word j) i = order.bit word (8 * j + i) := by
  cases order with
  | little =>
      simp [ByteOrder.bit, ByteOrder.byte, hi]
  | big =>
      have within : 8 * (count - 1 - j) + 8 - i ≤ 8 * count := by
        omega
      have index : 8 * count - (8 * (count - 1 - j) + 8 - i) = 8 * j + i := by
        omega
      simp [ByteOrder.bit, ByteOrder.byte, hi, within, index]

theorem bit_readWord (order : ByteOrder) (contents : Contents width)
    (address : BitVec width) {count i : ℕ} (hi : i < 8 * count) :
    order.bit (readWord order contents address count) i =
      order.bit (contents (address + BitVec.ofNat width (i / 8))) (i % 8) := by
  induction count generalizing address i with
  | zero => omega
  | succ count ih =>
      cases order with
      | little =>
          simp only [ByteOrder.bit, readWord] at ih ⊢
          rw [BitVec.getLsbD_append]
          split
          · rename_i inFirst
            simp [Nat.div_eq_of_lt inFirst, Nat.mod_eq_of_lt inFirst]
          · rw [ih _ (by omega)]
            have quotient : i / 8 = (i - 8) / 8 + 1 := by
              omega
            have remainder : i % 8 = (i - 8) % 8 := by
              omega
            rw [quotient, remainder, BitVec.ofNat_add, BitVec.add_assoc,
              BitVec.add_comm 1]
            rfl
      | big =>
          simp only [ByteOrder.bit, readWord] at ih ⊢
          rw [BitVec.getMsbD_append]
          split
          · have quotient : i / 8 = count := by
              omega
            have remainder : i % 8 = i - 8 * count := by
              omega
            rw [quotient, remainder]
          · exact ih _ (by omega)

/-- A word at byte address `base` holds the bits from `8 * base` on. -/
theorem bit_readWord_ofNat (order : ByteOrder) (contents : Contents width)
    (base : ℕ) {count i : ℕ} (hi : i < 8 * count) :
    order.bit
        (readWord order contents (BitVec.ofNat width base) count) i =
      bitAt order contents (8 * base + i) := by
  have quotient : (8 * base + i) / 8 = base + i / 8 := by
    omega
  have remainder : (8 * base + i) % 8 = i % 8 := by
    omega
  rw [bit_readWord order contents _ hi, bitAt, quotient, remainder,
    BitVec.ofNat_add]

theorem toNat_ofNat_sub_ofNat {base byte : ℕ} (hBase : base < 2 ^ width)
    (hByte : byte < 2 ^ width) :
    (BitVec.ofNat width byte - BitVec.ofNat width base).toNat =
      if base ≤ byte then byte - base else 2 ^ width - base + byte := by
  rw [BitVec.toNat_sub, BitVec.toNat_ofNat, BitVec.toNat_ofNat,
    Nat.mod_eq_of_lt hBase, Nat.mod_eq_of_lt hByte]
  split
  · rw [show 2 ^ width - base + byte = byte - base + 2 ^ width by omega,
      Nat.add_mod_right, Nat.mod_eq_of_lt (by omega)]
  · exact Nat.mod_eq_of_lt (by omega)

/-- A store changes the bits of its word, and no others. -/
theorem bitAt_writeWord (order : ByteOrder) (contents : Contents width)
    {base count : ℕ} (word : BitVec (8 * count))
    (inMemory : base + count ≤ 2 ^ width) {k : ℕ}
    (hk : k < 8 * 2 ^ width) :
    bitAt order
        (writeWord order contents (BitVec.ofNat width base) word) k =
      if 8 * base ≤ k ∧ k < 8 * (base + count) then
        order.bit word (k - 8 * base)
      else
        bitAt order contents k := by
  rcases Nat.eq_zero_or_pos count with rfl | countPos
  · simp [bitAt, writeWord, show ¬(8 * base ≤ k ∧ k < 8 * base) by omega]
  have offset := toNat_ofNat_sub_ofNat (show base < 2 ^ width by omega)
    (show k / 8 < 2 ^ width by omega)
  rw [bitAt, writeWord, offset]
  by_cases inside : 8 * base ≤ k ∧ k < 8 * (base + count)
  · have reached : base ≤ k / 8 := by
      omega
    rw [if_pos reached, if_pos (by omega), if_pos inside,
      bit_byte order word (Nat.mod_lt _ (by omega)) (by omega)]
    congr 1
    omega
  · rw [if_neg inside, if_neg (by split <;> omega), bitAt]

theorem exists_byte_getMsbD_eq (bits : ℕ → Bool) :
    ∃ byte : BitVec 8, ∀ i < 8, byte.getMsbD i = bits i := by
  refine ⟨BitVec.ofBoolListBE [bits 0, bits 1, bits 2, bits 3, bits 4,
    bits 5, bits 6, bits 7], ?_⟩
  intro i hi
  interval_cases i <;> simp

theorem exists_byte_bit_eq (order : ByteOrder) (bits : ℕ → Bool) :
    ∃ byte : BitVec 8, ∀ i < 8, order.bit byte i = bits i := by
  cases order with
  | little =>
      rcases exists_byte_getMsbD_eq fun i => bits (7 - i) with ⟨byte, hByte⟩
      refine ⟨byte, ?_⟩
      intro i hi
      rw [ByteOrder.bit, BitVec.getLsbD_eq_getMsbD, hByte _ (by omega)]
      simp [hi, show 7 - (7 - i) = i by omega]
  | big => exact exists_byte_getMsbD_eq bits

/-- Every choice of bits is held by some memory. -/
theorem exists_bitAt_eq (order : ByteOrder) (bits : ℕ → Bool) :
    ∃ contents : Contents width,
      ∀ k < 8 * 2 ^ width, bitAt order contents k = bits k := by
  choose byte hByte using fun address : BitVec width =>
    exists_byte_bit_eq order fun i => bits (8 * address.toNat + i)
  refine ⟨byte, ?_⟩
  intro k hk
  rw [bitAt, hByte _ _ (Nat.mod_lt _ (by omega)), BitVec.toNat_ofNat,
    Nat.mod_eq_of_lt (by omega), Nat.div_add_mod]

/-- A mask of the low bits. -/
theorem getLsbD_ones {size : ℕ} (lt : size < width) (i : ℕ) :
    ((1 : BitVec width) <<< size - 1).getLsbD i = decide (i < size) := by
  have power : 2 ^ size < 2 ^ width := Nat.pow_lt_pow_right (by omega) lt
  have pos : 0 < 2 ^ size := Nat.two_pow_pos size
  have one : (1 : BitVec width).toNat = 1 := by
    simp [Nat.mod_eq_of_lt (show 1 < 2 ^ width by omega)]
  have shifted : ((1 : BitVec width) <<< size).toNat = 2 ^ size := by
    rw [BitVec.toNat_shiftLeft, one, Nat.one_shiftLeft,
      Nat.mod_eq_of_lt power]
  have value : ((1 : BitVec width) <<< size - 1).toNat = 2 ^ size - 1 := by
    rw [BitVec.toNat_sub_of_le, shifted, one]
    rw [BitVec.le_def, shifted, one]
    omega
  rw [← BitVec.testBit_toNat, value, Nat.testBit_two_pow_sub_one]

end ByteMemory
