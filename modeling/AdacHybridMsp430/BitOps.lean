import AdacHybridMsp430.RuntimeSystem

/-!
# Operations on packed bit arrays

The routines of `System.Bit_Ops`, on arrays of `(Len + 7) / 8` bytes.  Three of
them go through the bytes; `Bit_And` loads one, two or four bytes at once, so
that it meets the contract of the package for some lengths only.
-/

namespace AdacHybridMsp430

namespace BitOps

open ByteMemory Target

/-- The address of `B (J)`, where `B` is `To_Bits (First)`; `Bits_Array` has a
ones origin. -/
def componentAddress (first : Address) (j : ℕ) : Address :=
  first + BitVec.ofNat 16 (j - 1)

/-- `Result := Left op Right` on unsigned objects of `count` bytes. -/
def combine (op : {width : ℕ} → BitVec width → BitVec width → BitVec width)
    (count : ℕ) (left right result : Address) (memory : Memory) : Memory :=
  let (leftWord, memory) := load byteOrder left count memory
  let (rightWord, memory) := load byteOrder right count memory
  store byteOrder result (op leftWord rightWord) memory

def complement (count : ℕ) (opnd result : Address) (memory : Memory) :
    Memory :=
  let (word, memory) := load byteOrder opnd count memory
  store byteOrder result (~~~word) memory

/-- `for J in 1 .. Last loop`. -/
def forLoop (body : ℕ → Memory → Memory) : ℕ → Memory → Memory
  | 0, memory => memory
  | last + 1, memory => body (last + 1) (forLoop body last memory)

/-- The raise statement is commented out. -/
def raiseError (memory : Memory) : Memory := memory

def bitAnd (left : Address) (llen : ℕ) (right : Address) (_rlen : ℕ)
    (result : Address) (memory : Memory) : Memory :=
  if llen = 8 then
    combine (· &&& ·) 1 left right result memory
  else if llen = 16 then
    combine (· &&& ·) 2 left right result memory
  else
    combine (· &&& ·) 4 left right result memory

/-- The common text of `Bit_Or` and `Bit_Xor`. -/
def combineBytes
    (op : {width : ℕ} → BitVec width → BitVec width → BitVec width)
    (left : Address) (llen : ℕ) (right : Address) (rlen : ℕ)
    (result : Address) (memory : Memory) : Memory :=
  let memory := if llen ≠ rlen then raiseError memory else memory
  forLoop (fun j => combine op 1 (componentAddress left j)
    (componentAddress right j) (componentAddress result j))
    ((rlen + 7) / 8) memory

def bitOr (left : Address) (llen : ℕ) (right : Address) (rlen : ℕ)
    (result : Address) (memory : Memory) : Memory :=
  combineBytes (· ||| ·) left llen right rlen result memory

def bitXor (left : Address) (llen : ℕ) (right : Address) (rlen : ℕ)
    (result : Address) (memory : Memory) : Memory :=
  combineBytes (· ^^^ ·) left llen right rlen result memory

def bitNot (opnd : Address) (len : ℕ) (result : Address) (memory : Memory) :
    Memory :=
  forLoop (fun j => complement 1 (componentAddress opnd j)
    (componentAddress result j)) ((len + 7) / 8) memory

/-- One of the routines that compute a bit array, with its operands. -/
inductive Routine
  | bitAnd (left right : Address)
  | bitOr (left right : Address)
  | bitXor (left right : Address)
  | bitNot (opnd : Address)

def Routine.operands : Routine → List Address
  | .bitAnd left right => [left, right]
  | .bitOr left right => [left, right]
  | .bitXor left right => [left, right]
  | .bitNot opnd => [opnd]

/-- The bit that belongs in the result, from the bits of the operands. -/
def Routine.value (bit : Address → Bool) : Routine → Bool
  | .bitAnd left right => bit left && bit right
  | .bitOr left right => bit left || bit right
  | .bitXor left right => bit left ^^ bit right
  | .bitNot opnd => !bit opnd

/-- Two arrays of `count` bytes are the same or have no byte in common. -/
def SameOrApart (count : ℕ) (first second : Address) : Prop :=
  first = second ∨ first.toNat + count ≤ second.toNat ∨
    second.toNat + count ≤ first.toNat

/-- A call on arrays of `len` bits that lie in memory and do not partially
overlap. -/
structure Call where
  routine : Routine
  len : ℕ
  result : Address
  inMemory : ∀ array ∈ result :: routine.operands,
    array.toNat + (len + 7) / 8 ≤ memorySize
  separate : (result :: routine.operands).Pairwise
    (SameOrApart ((len + 7) / 8))

def Call.run (call : Call) (memory : Memory) : Memory :=
  match call.routine with
  | .bitAnd left right =>
      bitAnd left call.len right call.len call.result memory
  | .bitOr left right =>
      bitOr left call.len right call.len call.result memory
  | .bitXor left right =>
      bitXor left call.len right call.len call.result memory
  | .bitNot opnd => bitNot opnd call.len call.result memory

/-- Bit `i` of the array at an address. -/
def arrayBit (contents : Contents 16) (i : ℕ) (array : Address) : Bool :=
  bitAt byteOrder contents (8 * array.toNat + i)

/-- The bits that a call is to compute. -/
def Call.wanted (call : Call) (contents : Contents 16) (i : ℕ) : Bool :=
  call.routine.value (arrayBit contents i)

/-- The contract of a call: the result holds the wanted bits, and the call
accesses nothing but the bytes of its arrays. -/
structure Call.Meets (call : Call) (before : Contents 16) (after : Memory) :
    Prop where
  computed : ∀ i < call.len,
    arrayBit after.contents i call.result = call.wanted before i
  written : ∀ access ∈ after.accesses, access.isStore = true →
    access.Inside call.result ((call.len + 7) / 8)
  read : ∀ access ∈ after.accesses, access.isStore = false →
    ∃ operand ∈ call.routine.operands,
      access.Inside operand ((call.len + 7) / 8)
  unchanged : ∀ address : Address,
    (address.toNat < call.result.toNat ∨
      call.result.toNat + (call.len + 7) / 8 ≤ address.toNat) →
    after.contents address = before address

/-- When a call of `Bit_And` meets its contract: it accesses as many bytes as
the arrays have, or the bits that it leaves out are there already. -/
def Call.Supported (call : Call) (contents : Contents 16) : Prop :=
  match call.routine with
  | .bitAnd _ _ =>
      call.len = 8 ∨ call.len = 16 ∨ 24 < call.len ∧
        ∀ i, 32 ≤ i → i < call.len →
          arrayBit contents i call.result = call.wanted contents i
  | _ => True

/-- One statement on `count` bytes, `offset` bytes into the arrays: the bits it
stores and the accesses it makes. -/
structure Segment (routine : Routine) (result : Address) (offset count : ℕ)
    (before after : Memory) : Prop where
  bits : ∀ k < 8 * memorySize,
    bitAt byteOrder after.contents k =
      if 8 * (result.toNat + offset) ≤ k ∧
          k < 8 * (result.toNat + offset + count) then
        routine.value (arrayBit before.contents (k - 8 * result.toNat))
      else
        bitAt byteOrder before.contents k
  accesses : after.accesses =
    ⟨true, result + BitVec.ofNat 16 offset, count⟩ ::
      routine.operands.reverse.map
        (⟨false, · + BitVec.ofNat 16 offset, count⟩) ++ before.accesses

/-- The first `size` bytes of the result are done. -/
structure Done (routine : Routine) (result : Address) (size : ℕ)
    (before : Contents 16) (after : Memory) : Prop where
  bits : ∀ k < 8 * memorySize,
    bitAt byteOrder after.contents k =
      if 8 * result.toNat ≤ k ∧ k < 8 * (result.toNat + size) then
        routine.value (arrayBit before (k - 8 * result.toNat))
      else
        bitAt byteOrder before k
  written : ∀ access ∈ after.accesses, access.isStore = true →
    access.Inside result size
  read : ∀ access ∈ after.accesses, access.isStore = false →
    ∃ operand ∈ routine.operands, access.Inside operand size

theorem bit_readWord_add (contents : Contents 16) (first : Address)
    (offset : ℕ) {count i : ℕ} (hi : i < 8 * count) :
    byteOrder.bit (readWord byteOrder contents
        (first + BitVec.ofNat 16 offset) count) i =
      arrayBit contents (8 * offset + i) first := by
  rw [add_ofNat, bit_readWord_ofNat byteOrder contents _ hi, arrayBit]
  congr 1
  omega

theorem Routine.value_congr (routine : Routine) {bit other : Address → Bool}
    (agree : ∀ operand ∈ routine.operands, bit operand = other operand) :
    routine.value bit = routine.value other := by
  cases routine <;>
    simp only [operands, List.mem_cons, List.not_mem_nil, or_false,
      forall_eq_or_imp, forall_eq] at agree <;>
    simp [value, agree]

/-- A store of a word that holds the wanted bits. -/
theorem bitAt_store_segment {routine : Routine} {result : Address}
    {offset count : ℕ} {contents : Contents 16} {word : BitVec (8 * count)}
    (inMemory : result.toNat + offset + count ≤ memorySize)
    (bits : ∀ i < 8 * count, byteOrder.bit word i =
      routine.value (arrayBit contents (8 * offset + i)))
    {k : ℕ} (hk : k < 8 * memorySize) :
    bitAt byteOrder (writeWord byteOrder contents
        (result + BitVec.ofNat 16 offset) word) k =
      if 8 * (result.toNat + offset) ≤ k ∧
          k < 8 * (result.toNat + offset + count) then
        routine.value (arrayBit contents (k - 8 * result.toNat))
      else
        bitAt byteOrder contents k := by
  rw [add_ofNat, bitAt_writeWord byteOrder contents word inMemory hk]
  split
  · rename_i inside
    rw [bits _ (by omega)]
    congr 2
    omega
  · rfl

/-- A binary operator that works bit by bit as the routine asks. -/
theorem segment_combine {routine : Routine} {left right result : Address}
    {op : {width : ℕ} → BitVec width → BitVec width → BitVec width}
    {offset count : ℕ} (memory : Memory)
    (operands : routine.operands = [left, right])
    (bitwise : ∀ {width : ℕ} (x y : BitVec width) (bit : Address → Bool)
      (i : ℕ), x.getLsbD i = bit left → y.getLsbD i = bit right →
        (op x y).getLsbD i = routine.value bit)
    (inMemory : result.toNat + offset + count ≤ memorySize) :
    Segment routine result offset count memory
      (combine op count (left + BitVec.ofNat 16 offset)
        (right + BitVec.ofNat 16 offset) (result + BitVec.ofNat 16 offset)
        memory) where
  bits := by
    intro k hk
    refine bitAt_store_segment inMemory ?_ hk
    intro i hi
    exact bitwise _ _ _ _ (bit_readWord_add memory.contents left offset hi)
      (bit_readWord_add memory.contents right offset hi)
  accesses := by
    simp [combine, operands]

theorem segment_complement {opnd result : Address} {offset count : ℕ}
    (memory : Memory)
    (inMemory : result.toNat + offset + count ≤ memorySize) :
    Segment (.bitNot opnd) result offset count memory
      (complement count (opnd + BitVec.ofNat 16 offset)
        (result + BitVec.ofNat 16 offset) memory) where
  bits := by
    intro k hk
    refine bitAt_store_segment inMemory ?_ hk
    intro i hi
    have bit := bit_readWord_add memory.contents opnd offset hi
    simp only [byteOrder, ByteOrder.bit] at bit
    simp only [byteOrder, ByteOrder.bit, Routine.value, BitVec.getLsbD_not, hi,
      decide_true, Bool.true_and, bit]
  accesses := by
    simp [complement, Routine.operands]

theorem done_fresh (routine : Routine) (result : Address)
    (contents : Contents 16) :
    Done routine result 0 contents (fresh contents) where
  bits := by
    intro k _
    rw [if_neg (by omega), contents_fresh]
  written := by simp [fresh]
  read := by simp [fresh]

/-- The step of a loop: the operand bytes of the next segment are those from
before the call, because they are the bytes to be replaced or lie apart from
the result. -/
theorem Done.segment {routine : Routine} {result : Address}
    {size count bytes : ℕ} {before : Contents 16} {memory after : Memory}
    (done : Done routine result size before memory)
    (segment : Segment routine result size count memory after)
    (countPos : 0 < count) (within : size + count ≤ bytes)
    (inMemory : ∀ array ∈ result :: routine.operands,
      array.toNat + bytes ≤ memorySize)
    (separate : ∀ operand ∈ routine.operands,
      SameOrApart bytes result operand) :
    Done routine result (size + count) before after where
  bits := by
    intro k hk
    rw [segment.bits k hk]
    by_cases inSegment : 8 * (result.toNat + size) ≤ k ∧
        k < 8 * (result.toNat + size + count)
    · rw [if_pos inSegment, if_pos (by omega)]
      apply routine.value_congr
      intro operand mem
      have bound := inMemory operand (List.mem_cons_of_mem _ mem)
      have position : ¬(8 * result.toNat ≤
            8 * operand.toNat + (k - 8 * result.toNat) ∧
          8 * operand.toNat + (k - 8 * result.toNat) <
            8 * (result.toNat + size)) := by
        rcases separate operand mem with rfl | apart | apart <;> omega
      rw [arrayBit, done.bits _ (by omega), if_neg position, arrayBit]
    · rw [if_neg inSegment, done.bits k hk]
      by_cases inDone : 8 * result.toNat ≤ k ∧
          k < 8 * (result.toNat + size)
      · rw [if_pos inDone, if_pos (by omega)]
      · rw [if_neg inDone, if_neg (by omega)]
  written := by
    intro access mem isStore
    rw [segment.accesses, List.cons_append, List.mem_cons, List.mem_append,
      List.mem_map] at mem
    rcases mem with rfl | ⟨operand, -, rfl⟩ | mem
    · have bound := inMemory result List.mem_cons_self
      exact inside_add true countPos
        (show result.toNat + size + count ≤ memorySize by omega)
    · cases isStore
    · exact (done.written access mem isStore).mono (by omega)
  read := by
    intro access mem isLoad
    rw [segment.accesses, List.cons_append, List.mem_cons, List.mem_append,
      List.mem_map] at mem
    rcases mem with rfl | ⟨operand, mem, rfl⟩ | mem
    · cases isLoad
    · have member := List.mem_reverse.mp mem
      have bound := inMemory operand (List.mem_cons_of_mem _ member)
      exact ⟨operand, member, inside_add false countPos
        (show operand.toNat + size + count ≤ memorySize by omega)⟩
    · rcases done.read access mem isLoad with ⟨operand, member, inside⟩
      exact ⟨operand, member, inside.mono (by omega)⟩

/-- A loop over bytes, each of which it handles as a segment. -/
theorem done_forLoop {routine : Routine} {result : Address} {bytes : ℕ}
    {body : ℕ → Memory → Memory} (contents : Contents 16)
    (inMemory : ∀ array ∈ result :: routine.operands,
      array.toNat + bytes ≤ memorySize)
    (separate : ∀ operand ∈ routine.operands,
      SameOrApart bytes result operand)
    (segment : ∀ (j : ℕ) (memory : Memory), j < bytes →
      Segment routine result j 1 memory (body (j + 1) memory))
    {last : ℕ} (within : last ≤ bytes) :
    Done routine result last contents
      (forLoop body last (fresh contents)) := by
  induction last with
  | zero => exact done_fresh routine result contents
  | succ last ih =>
      exact (ih (by omega)).segment (segment last _ within) Nat.one_pos within
        inMemory separate

theorem contents_eq_of_bitAt_eq {contents other : Contents 16}
    {address : Address}
    (eq : ∀ i < 8, bitAt byteOrder contents (8 * address.toNat + i) =
      bitAt byteOrder other (8 * address.toNat + i)) :
    contents address = other address := by
  refine @byte_eq_of_bit_eq byteOrder _ _ fun i hi => ?_
  simpa [bitAt_byte, hi] using eq i hi

/-- A call that does some bytes meets its contract when the other bits are
there already. -/
theorem meets_iff_of_done {call : Call} {size : ℕ} {contents : Contents 16}
    {after : Memory}
    (done : Done call.routine call.result size contents after)
    (within : size ≤ (call.len + 7) / 8) :
    call.Meets contents after ↔
      ∀ i, 8 * size ≤ i → i < call.len →
        arrayBit contents i call.result = call.wanted contents i := by
  have bound := call.inMemory call.result List.mem_cons_self
  have bit : ∀ i < call.len, arrayBit after.contents i call.result =
      if i < 8 * size then call.wanted contents i
      else arrayBit contents i call.result := by
    intro i hi
    rw [arrayBit, done.bits _ (by omega)]
    by_cases inDone : i < 8 * size
    · rw [if_pos (by omega), if_pos inDone, Call.wanted, Nat.add_sub_cancel_left]
    · rw [if_neg (by omega), if_neg inDone, arrayBit]
  constructor
  · intro meets i afterDone hi
    rw [← meets.computed i hi, bit i hi, if_neg (by omega)]
  · intro rest
    refine ⟨?_, ?_, ?_, ?_⟩
    · intro i hi
      rw [bit i hi]
      split
      · rfl
      · exact rest i (by omega) hi
    · intro access mem isStore
      exact (done.written access mem isStore).mono within
    · intro access mem isLoad
      rcases done.read access mem isLoad with ⟨operand, member, inside⟩
      exact ⟨operand, member, inside.mono within⟩
    · intro address outside
      apply contents_eq_of_bitAt_eq
      intro i hi
      have inMemory : address.toNat < 2 ^ 16 := address.isLt
      simp only [memorySize] at bound
      rw [done.bits _ (by simp only [memorySize]; omega), if_neg (by omega)]

theorem Call.separate_result (call : Call) :
    ∀ operand ∈ call.routine.operands,
      SameOrApart ((call.len + 7) / 8) call.result operand :=
  (List.pairwise_cons.mp call.separate).1

/-- An operation on arrays of one length goes through their bytes. -/
theorem done_combineBytes {routine : Routine} {left right result : Address}
    {op : {width : ℕ} → BitVec width → BitVec width → BitVec width} {len : ℕ}
    (contents : Contents 16) (operands : routine.operands = [left, right])
    (bitwise : ∀ {width : ℕ} (x y : BitVec width) (bit : Address → Bool)
      (i : ℕ), x.getLsbD i = bit left → y.getLsbD i = bit right →
        (op x y).getLsbD i = routine.value bit)
    (inMemory : ∀ array ∈ result :: routine.operands,
      array.toNat + (len + 7) / 8 ≤ memorySize)
    (separate : ∀ operand ∈ routine.operands,
      SameOrApart ((len + 7) / 8) result operand) :
    Done routine result ((len + 7) / 8) contents
      (combineBytes op left len right len result (fresh contents)) := by
  simp only [combineBytes, ne_eq, not_true_eq_false, if_false]
  refine done_forLoop contents inMemory separate ?_ le_rfl
  intro j memory hj
  have bound := inMemory result List.mem_cons_self
  exact segment_combine memory operands bitwise (by omega)

/-- The routines that go through the bytes do all of them. -/
theorem done_run_of_bytes {call : Call} (contents : Contents 16)
    (bytes : ∀ left right, call.routine ≠ .bitAnd left right) :
    Done call.routine call.result ((call.len + 7) / 8) contents
      (call.run (fresh contents)) := by
  have separate := call.separate_result
  rcases call with ⟨routine, len, result, inMemory, pairwise⟩
  cases routine with
  | bitAnd left right => exact absurd rfl (bytes left right)
  | bitOr left right =>
      apply done_combineBytes contents rfl _ inMemory separate
      intro width x y bit i leftBit rightBit
      rw [BitVec.getLsbD_or, leftBit, rightBit, Routine.value]
  | bitXor left right =>
      apply done_combineBytes contents rfl _ inMemory separate
      intro width x y bit i leftBit rightBit
      rw [BitVec.getLsbD_xor, leftBit, rightBit, Routine.value]
  | bitNot opnd =>
      simp only [Call.run, bitNot]
      refine done_forLoop contents inMemory separate ?_ le_rfl
      intro j memory hj
      have bound := inMemory result List.mem_cons_self
      exact segment_complement memory (by omega)

theorem segment_and (left right result : Address) {count : ℕ}
    (memory : Memory) (inMemory : result.toNat + count ≤ memorySize) :
    Segment (.bitAnd left right) result 0 count memory
      (combine (· &&& ·) count left right result memory) := by
  have segment : Segment (.bitAnd left right) result 0 count memory
      (combine (· &&& ·) count (left + BitVec.ofNat 16 0)
        (right + BitVec.ofNat 16 0) (result + BitVec.ofNat 16 0) memory) := by
    refine segment_combine memory rfl ?_ inMemory
    intro width x y bit i leftBit rightBit
    rw [BitVec.getLsbD_and, leftBit, rightBit, Routine.value]
  simpa using segment

/-- `Bit_And` on arrays of at least as many bytes as it accesses. -/
theorem done_and {call : Call} {left right : Address} {count : ℕ}
    (contents : Contents 16) (isAnd : call.routine = .bitAnd left right)
    (countPos : 0 < count) (within : count ≤ (call.len + 7) / 8) :
    Done call.routine call.result count contents
      (combine (· &&& ·) count left right call.result (fresh contents)) := by
  have bound := call.inMemory call.result List.mem_cons_self
  have segment := segment_and left right call.result (fresh contents)
    (show call.result.toNat + count ≤ memorySize by omega)
  rw [← isAnd] at segment
  have done := (done_fresh call.routine call.result contents).segment segment
    countPos (by omega) call.inMemory call.separate_result
  rwa [Nat.zero_add] at done

/-- On a shorter array, the store of four bytes goes beyond it. -/
theorem not_meets_of_store {call : Call} (count : ℕ) {contents : Contents 16}
    {after : Memory} (stored : ⟨true, call.result, count⟩ ∈ after.accesses)
    (beyond : (call.len + 7) / 8 < count) :
    ¬call.Meets contents after := by
  intro meets
  have inside := (meets.written _ stored rfl).2
  simp only at inside
  omega

theorem meets_run_of_bytes {call : Call} (contents : Contents 16)
    (bytes : ∀ left right, call.routine ≠ .bitAnd left right) :
    call.Meets contents (call.run (fresh contents)) := by
  rw [meets_iff_of_done (done_run_of_bytes contents bytes) le_rfl]
  omega

/-- A call meets its contract exactly when it is supported. -/
theorem meets_run_iff (call : Call) (contents : Contents 16) :
    call.Meets contents (call.run (fresh contents)) ↔
      call.Supported contents := by
  cases isRoutine : call.routine with
  | bitAnd left right =>
      simp only [Call.Supported, Call.run, isRoutine]
      rw [bitAnd]
      split
      · rename_i len
        rw [meets_iff_of_done (done_and contents isRoutine Nat.one_pos
          (by omega)) (by omega)]
        refine iff_of_true ?_ (Or.inl len)
        omega
      split
      · rename_i len
        rw [meets_iff_of_done (done_and contents isRoutine Nat.two_pos
          (by omega)) (by omega)]
        refine iff_of_true ?_ (Or.inr (Or.inl len))
        omega
      · rename_i not8 not16
        by_cases short : call.len ≤ 24
        · refine iff_of_false ?_ ?_
          · exact not_meets_of_store 4 (by simp [combine])
              (by omega)
          · omega
        · rw [meets_iff_of_done (done_and contents isRoutine (by omega)
            (by omega)) (by omega)]
          simp only [not8, not16, false_or, Nat.lt_of_not_le short, true_and]
  | bitOr left right =>
      refine iff_of_true (meets_run_of_bytes contents ?_) ?_
      · simp [isRoutine]
      · simp [Call.Supported, isRoutine]
  | bitXor left right =>
      refine iff_of_true (meets_run_of_bytes contents ?_) ?_
      · simp [isRoutine]
      · simp [Call.Supported, isRoutine]
  | bitNot opnd =>
      refine iff_of_true (meets_run_of_bytes contents ?_) ?_
      · simp [isRoutine]
      · simp [Call.Supported, isRoutine]

/-- Three bits in each of three neighbouring bytes. -/
def threeBits : Call where
  routine := .bitAnd 0x200 0x201
  len := 3
  result := 0x202
  inMemory := by simp [Routine.operands, memorySize]
  separate := by simp [Routine.operands, SameOrApart]

theorem not_meets_threeBits :
    ¬threeBits.Meets (fun _ => 0) (threeBits.run (fresh fun _ => 0)) :=
  not_meets_of_store 4
    (by simp [threeBits, Call.run, bitAnd, combine]) (by simp [threeBits])

end BitOps

end AdacHybridMsp430
