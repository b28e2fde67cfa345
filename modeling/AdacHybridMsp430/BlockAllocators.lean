import Mathlib.Data.BitVec
import Mathlib.Data.List.Infix

/-!
# Allocators of blocks

The contract between the functions that allocate and free blocks of memory and
their callers: a new block is apart from all live ones, and nothing else
happens to these.
-/

namespace BlockAllocators

/-- The bytes from an address on. -/
structure Block (width : ℕ) where
  address : BitVec width
  size : ℕ

/-- Two blocks have no byte in common. -/
def Block.Apart {width : ℕ} (first second : Block width) : Prop :=
  first.address.toNat + first.size ≤ second.address.toNat ∨
    second.address.toNat + second.size ≤ first.address.toNat

/-- An allocator with its state, and the live blocks in each state.  There is no
new block at the null address. -/
structure Allocator (width : ℕ) (State : Type*) where
  malloc : BitVec width → State → BitVec width × State
  free : BitVec width → State → State
  live : State → List (Block width)
  fails : ∀ size state, (malloc size state).1 = 0 →
    live (malloc size state).2 = live state
  allocates : ∀ size state, (malloc size state).1 ≠ 0 →
    live (malloc size state).2 =
      ⟨(malloc size state).1, size.toNat⟩ :: live state
  inMemory : ∀ size state, (malloc size state).1 ≠ 0 →
    (malloc size state).1.toNat + size.toNat ≤ 2 ^ width
  apart : ∀ size state, (malloc size state).1 ≠ 0 → ∀ block ∈ live state,
    Block.Apart ⟨(malloc size state).1, size.toNat⟩ block
  frees : ∀ address state, live (free address state) =
    (live state).filter fun block => block.address ≠ address

variable {width : ℕ} {State : Type*}

/-- The live blocks are in memory, not at the null address, and apart. -/
structure Separated (blocks : List (Block width)) : Prop where
  proper : ∀ block ∈ blocks, block.address ≠ 0
  inMemory : ∀ block ∈ blocks, block.address.toNat + block.size ≤ 2 ^ width
  apart : blocks.Pairwise Block.Apart

theorem separated_nil : Separated ([] : List (Block width)) where
  proper := by simp
  inMemory := by simp
  apart := List.Pairwise.nil

variable (allocator : Allocator width State)

theorem Allocator.separated_malloc {state : State} (size : BitVec width)
    (separated : Separated (allocator.live state)) :
    Separated (allocator.live (allocator.malloc size state).2) := by
  by_cases null : (allocator.malloc size state).1 = 0
  · rwa [allocator.fails size state null]
  · rw [allocator.allocates size state null]
    constructor
    · intro block member
      rcases List.mem_cons.mp member with rfl | older
      · exact null
      · exact separated.proper block older
    · intro block member
      rcases List.mem_cons.mp member with rfl | older
      · exact allocator.inMemory size state null
      · exact separated.inMemory block older
    · exact List.pairwise_cons.mpr
        ⟨allocator.apart size state null, separated.apart⟩

theorem Allocator.separated_free {state : State} (address : BitVec width)
    (separated : Separated (allocator.live state)) :
    Separated (allocator.live (allocator.free address state)) := by
  rw [allocator.frees]
  constructor
  · intro block member
    exact separated.proper block (List.mem_of_mem_filter member)
  · intro block member
    exact separated.inMemory block (List.mem_of_mem_filter member)
  · exact separated.apart.filter _

/-- Blocks that are apart and not empty have different addresses. -/
theorem Block.Apart.ne {first second : Block width} (apart : first.Apart second)
    (firstSize : 0 < first.size) (secondSize : 0 < second.size) :
    first.address ≠ second.address := by
  intro same
  rw [Block.Apart, same] at apart
  omega

end BlockAllocators
