import AdacHybridMsp430.BitOps

/-!
# Comparing packed bit arrays

`Bit_Eq` of `System.Bit_Ops` compares the whole bytes of two bit strings, and
masks the bits after the end out of the last byte.  It is the equality of the
bit strings, in the bit numbering that goes with either byte order.
-/

namespace AdacHybridMsp430

namespace BitOps

open ByteMemory Target

variable (order : ByteOrder)

/-- `LE`: `Standard'Default_Bit_Order` is 0 for big-endian targets and 1 for
little-endian ones. -/
def LE : ℕ :=
  match order with
  | .big => 0
  | .little => 1

/-- `Masks`; it has a ones origin. -/
def masks : List (BitVec 8) :=
  [BitVec.ofNat 8 ((1 - LE order) * 0b10000000 + LE order * 0b00000001),
    BitVec.ofNat 8 ((1 - LE order) * 0b11000000 + LE order * 0b00000011),
    BitVec.ofNat 8 ((1 - LE order) * 0b11100000 + LE order * 0b00000111),
    BitVec.ofNat 8 ((1 - LE order) * 0b11110000 + LE order * 0b00001111),
    BitVec.ofNat 8 ((1 - LE order) * 0b11111000 + LE order * 0b00011111),
    BitVec.ofNat 8 ((1 - LE order) * 0b11111100 + LE order * 0b00111111),
    BitVec.ofNat 8 ((1 - LE order) * 0b11111110 + LE order * 0b01111111)]

/-- `Masks (Bitc)`. -/
def mask (bitc : ℕ) : BitVec 8 :=
  (masks order).getD (bitc - 1) 0

/-- `LeftB (1 .. BLen) /= RightB (1 .. BLen)`, up to the first difference. -/
def slicesDiffer (left right : Address) : ℕ → Memory → Bool × Memory
  | 0, memory => (false, memory)
  | blen + 1, memory =>
      match slicesDiffer left right blen memory with
      | (true, memory) => (true, memory)
      | (false, memory) =>
          let (leftByte, memory) :=
            load order (componentAddress left (blen + 1)) 1 memory
          let (rightByte, memory) :=
            load order (componentAddress right (blen + 1)) 1 memory
          (leftByte ≠ rightByte, memory)

def bitEq (left : Address) (llen : ℕ) (right : Address) (rlen : ℕ)
    (memory : Memory) : Bool × Memory :=
  if llen ≠ rlen then
    (false, memory)
  else
    let blen := llen / 8
    let bitc := llen % 8
    match slicesDiffer order left right blen memory with
    | (true, memory) => (false, memory)
    | (false, memory) =>
        if bitc ≠ 0 then
          let (leftByte, memory) :=
            load order (componentAddress left (blen + 1)) 1 memory
          let (rightByte, memory) :=
            load order (componentAddress right (blen + 1)) 1 memory
          ((leftByte ^^^ rightByte) &&& mask order bitc = 0, memory)
        else
          (true, memory)

/-- Bit `i` of the bit string at an address. -/
def stringBit (contents : Contents 16) (i : ℕ) (array : Address) : Bool :=
  bitAt order contents (8 * array.toNat + i)

/-- The bit strings at two addresses agree on their first `len` bits. -/
def Agree (left right : Address) (len : ℕ) (contents : Contents 16) : Prop :=
  ∀ i < len, stringBit order contents i left = stringBit order contents i right

/-- The new accesses of a memory are loads of single bytes from the first
`count` bytes of the two arrays. -/
def ReadsWithin (left right : Address) (count : ℕ) (before after : Memory) :
    Prop :=
  after.contents = before.contents ∧
    ∃ accesses, after.accesses = accesses ++ before.accesses ∧
      ∀ access ∈ accesses, access.isStore = false ∧ access.count = 1 ∧
        ∃ j, 1 ≤ j ∧ j ≤ count ∧
          (access.address = componentAddress left j ∨
            access.address = componentAddress right j)

/-- The contract of `Bit_Eq`: its result is the equality of the bit strings,
depends on no other bits, and takes only the bytes that hold them. -/
structure EqualityContract (left : Address) (llen : ℕ) (right : Address)
    (rlen : ℕ) (memory : Memory) : Prop where
  equality : (bitEq order left llen right rlen memory).1 = true ↔
    llen = rlen ∧ Agree order left right llen memory.contents
  independent : ∀ other : Memory,
    (∀ i < llen,
      stringBit order other.contents i left =
          stringBit order memory.contents i left ∧
        stringBit order other.contents i right =
          stringBit order memory.contents i right) →
    (bitEq order left llen right rlen other).1 =
      (bitEq order left llen right rlen memory).1
  reads : ReadsWithin left right ((llen + 7) / 8) memory
    (bitEq order left llen right rlen memory).2

section Bytes

variable {order}

theorem bit_mask {bitc i : ℕ} (positive : 0 < bitc) (small : bitc < 8)
    (hi : i < 8) : order.bit (mask order bitc) i = decide (i < bitc) := by
  cases order <;> interval_cases bitc <;> interval_cases i <;> rfl

/-- Bytes are the same if their bits are. -/
theorem byte_eq_iff (order : ByteOrder) {first second : BitVec 8} :
    first = second ↔ ∀ i < 8, order.bit first i = order.bit second i := by
  cases order with
  | little => exact ⟨fun same _ _ => by rw [same], BitVec.eq_of_getLsbD_eq⟩
  | big => exact ⟨fun same _ _ => by rw [same], BitVec.eq_of_getMsbD_eq⟩

theorem bit_xor_and {first second third : BitVec 8} {i : ℕ} :
    order.bit ((first ^^^ second) &&& third) i =
      ((order.bit first i ^^ order.bit second i) && order.bit third i) := by
  cases order <;> simp [ByteOrder.bit]

/-- The masked difference of two bytes is zero if their first bits agree. -/
theorem masked_eq_zero_iff {first second : BitVec 8} {bitc : ℕ}
    (positive : 0 < bitc) (small : bitc < 8) :
    (first ^^^ second) &&& mask order bitc = 0 ↔
      ∀ i < bitc, order.bit first i = order.bit second i := by
  have zero : ∀ i, order.bit (0 : BitVec 8) i = false := by
    intro i
    cases order <;> simp [ByteOrder.bit]
  rw [byte_eq_iff order]
  simp only [bit_xor_and, zero]
  constructor
  · intro masked i hi
    have bit := masked i (by omega)
    rw [bit_mask positive small (by omega)] at bit
    simpa [hi] using bit
  · intro agree i hi
    rw [bit_mask positive small hi]
    by_cases inside : i < bitc
    · simp [agree i inside]
    · simp [inside]

/-- The bits of a component are a piece of the bit string. -/
theorem bit_component (contents : Contents 16) (first : Address) (blen : ℕ)
    {i : ℕ} (hi : i < 8) :
    order.bit (readWord order contents (componentAddress first (blen + 1)) 1)
        i = stringBit order contents (8 * blen + i) first := by
  rw [componentAddress, Nat.add_sub_cancel, add_ofNat,
    bit_readWord_ofNat order contents _ (by omega), stringBit]
  congr 1
  omega

end Bytes

section Reads

variable {left right : Address} {count : ℕ} {before middle after : Memory}

theorem readsWithin_refl (memory : Memory) :
    ReadsWithin left right count memory memory :=
  ⟨rfl, Accesses.refl memory⟩

theorem ReadsWithin.trans (first : ReadsWithin left right count before middle)
    (second : ReadsWithin left right count middle after) :
    ReadsWithin left right count before after :=
  ⟨second.1.trans first.1, Accesses.trans first.2 second.2⟩

theorem ReadsWithin.mono {larger : ℕ}
    (reads : ReadsWithin left right count before after) (le : count ≤ larger) :
    ReadsWithin left right larger before after := by
  refine ⟨reads.1, Accesses.mono reads.2 ?_⟩
  rintro access ⟨isLoad, single, j, positive, bound, place⟩
  exact ⟨isLoad, single, j, positive, by omega, place⟩

/-- The two loads of a component. -/
theorem readsWithin_component (order : ByteOrder) {j : ℕ} (positive : 1 ≤ j)
    (bound : j ≤ count) (memory : Memory) :
    ReadsWithin left right count memory
      (load order (componentAddress right j) 1
        (load order (componentAddress left j) 1 memory).2).2 := by
  refine ⟨rfl, [⟨false, componentAddress right j, 1⟩,
    ⟨false, componentAddress left j, 1⟩], rfl, ?_⟩
  intro access member
  simp only [List.mem_cons, List.not_mem_nil, or_false] at member
  rcases member with rfl | rfl
  · exact ⟨rfl, rfl, j, positive, bound, Or.inr rfl⟩
  · exact ⟨rfl, rfl, j, positive, bound, Or.inl rfl⟩

end Reads

section Comparison

variable (left right : Address)

/-- The first bits agree, and so do some more. -/
theorem agree_add_iff (len more : ℕ) (contents : Contents 16) :
    Agree order left right (len + more) contents ↔
      Agree order left right len contents ∧
        ∀ i < more, stringBit order contents (len + i) left =
          stringBit order contents (len + i) right := by
  constructor
  · intro agree
    exact ⟨fun i hi => agree i (by omega),
      fun i hi => agree (len + i) (by omega)⟩
  · rintro ⟨agree, further⟩ i hi
    by_cases inside : i < len
    · exact agree i inside
    · have shifted := further (i - len) (by omega)
      rwa [Nat.add_sub_cancel' (by omega)] at shifted

/-- One more byte agrees if its bits do. -/
theorem agree_succ_byte_iff (blen : ℕ) (contents : Contents 16) :
    Agree order left right (8 * (blen + 1)) contents ↔
      Agree order left right (8 * blen) contents ∧
        readWord order contents (componentAddress left (blen + 1)) 1 =
          readWord order contents (componentAddress right (blen + 1)) 1 := by
  rw [Nat.mul_add, agree_add_iff, byte_eq_iff order]
  refine and_congr_right fun _ => ?_
  refine forall₂_congr fun i hi => ?_
  rw [bit_component contents left blen hi, bit_component contents right blen hi]

/-- The comparison of the whole bytes. -/
theorem slicesDiffer_spec (blen : ℕ) (memory : Memory) :
    ((slicesDiffer order left right blen memory).1 = false ↔
      Agree order left right (8 * blen) memory.contents) ∧
    ReadsWithin left right blen memory
      (slicesDiffer order left right blen memory).2 := by
  induction blen with
  | zero => exact ⟨by simp [slicesDiffer, Agree], readsWithin_refl memory⟩
  | succ blen ih =>
      obtain ⟨equality, reads⟩ := ih
      rw [agree_succ_byte_iff, ← equality]
      have reads := reads.mono (Nat.le_succ blen)
      rw [slicesDiffer]
      cases outcome : slicesDiffer order left right blen memory with
      | mk differ middle =>
          rw [outcome] at reads
          cases differ with
          | true => exact ⟨by simp, reads⟩
          | false =>
              have contents : middle.contents = memory.contents := reads.1
              refine ⟨?_, reads.trans
                (readsWithin_component order (by omega) le_rfl middle)⟩
              simp [contents]

/-- The result of `Bit_Eq` on strings of the same length. -/
theorem bitEq_spec (len : ℕ) (memory : Memory) :
    ((bitEq order left len right len memory).1 = true ↔
      Agree order left right len memory.contents) ∧
    ReadsWithin left right ((len + 7) / 8) memory
      (bitEq order left len right len memory).2 := by
  obtain ⟨equality, reads⟩ :=
    slicesDiffer_spec order left right (len / 8) memory
  have agree : Agree order left right len memory.contents ↔
      Agree order left right (8 * (len / 8)) memory.contents ∧
        ∀ i < len % 8,
          stringBit order memory.contents (8 * (len / 8) + i) left =
            stringBit order memory.contents (8 * (len / 8) + i) right := by
    rw [← agree_add_iff, Nat.div_add_mod]
  rw [agree, ← equality]
  have reads := reads.mono (show len / 8 ≤ (len + 7) / 8 by omega)
  rw [bitEq, if_neg (not_not_intro rfl)]
  dsimp only
  cases outcome : slicesDiffer order left right (len / 8) memory with
  | mk differ middle =>
      rw [outcome] at reads
      have contents : middle.contents = memory.contents := reads.1
      cases differ with
      | true => exact ⟨by simp, reads⟩
      | false =>
          by_cases whole : len % 8 = 0
          · rw [whole]
            exact ⟨by simp, reads⟩
          · have bits : ∀ i < len % 8, i < 8 := by
              intro i hi
              omega
            dsimp only
            rw [if_pos whole]
            refine ⟨?_, reads.trans
              (readsWithin_component order (by omega) (by omega) middle)⟩
            rw [decide_eq_true_iff, load_fst, load_fst, contents_load, contents,
              masked_eq_zero_iff (by omega) (by omega)]
            simp only [true_and]
            refine forall₂_congr fun i hi => ?_
            rw [bit_component memory.contents left _ (bits i hi),
              bit_component memory.contents right _ (bits i hi)]

end Comparison

/-- `Bit_Eq` meets its contract in either bit order, on any two bit strings. -/
theorem equalityContract (left : Address) (llen : ℕ) (right : Address)
    (rlen : ℕ) (memory : Memory) :
    EqualityContract order left llen right rlen memory := by
  by_cases same : llen = rlen
  · subst same
    have spec := bitEq_spec order left right llen
    exact
      { equality := by
          rw [(spec memory).1]
          simp
        independent := by
          intro other bits
          rw [Bool.eq_iff_iff, (spec other).1, (spec memory).1]
          refine forall₂_congr fun i hi => ?_
          rw [(bits i hi).1, (bits i hi).2]
        reads := (spec memory).2 }
  · have unequal : ∀ memory, bitEq order left llen right rlen memory =
        (false, memory) := fun memory => if_pos same
    exact
      { equality := by simp [unequal, same]
        independent := fun other _ => by rw [unequal, unequal]
        reads := by
          rw [unequal]
          exact readsWithin_refl memory }

end BitOps

end AdacHybridMsp430
