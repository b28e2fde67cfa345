import AdacHybridMsp430.BlockAllocators
import AdacHybridMsp430.RuntimeExceptions

/-!
# Heap allocations

`System.Memory` over any allocator of the C library.  Requests for no bytes are
made requests for one, so that their pointers are distinct too, and a request
that cannot be met ends in the last chance handler.
-/

namespace AdacHybridMsp430

namespace HeapAllocations

open AbortingRuns BlockAllocators Exceptions Target

/-- `size_t`. -/
abbrev SizeT := Address

def sizeLast : SizeT := BitVec.allOnes 16

/-- The addresses of the objects that a failing request passes on. -/
structure Objects where
  storageError : Address
  tooLarge : Address
  exhausted : Address

def objectTooLarge (objects : Objects) : Code :=
  raiseException objects.storageError ⟨objects.tooLarge, "object too large"⟩

def heapExhausted (objects : Objects) : Code :=
  raiseException objects.storageError ⟨objects.exhausted, "heap exhausted"⟩

/-- `Actual_Size`. -/
def actualSize (size : SizeT) : SizeT :=
  if size = 0 then 1 else size

section Program

variable {State : Type*} (cLibrary : Allocator 16 State) (objects : Objects)

def alloc (size : SizeT) (state : State) : Except Code Address × State :=
  if size = sizeLast then
    (.error (objectTooLarge objects), state)
  else
    let (result, state) := cLibrary.malloc (actualSize size) state
    if result = 0 then
      (.error (heapExhausted objects), state)
    else
      (.ok result, state)

def free (ptr : Address) (state : State) : State :=
  cLibrary.free ptr state

/-- A pointer that the program holds, with the size that it asked for. -/
structure Object where
  pointer : Address
  size : SizeT
deriving DecidableEq

/-- The heap, the objects that the program holds, and how it has ended. -/
structure Session (State : Type*) where
  heap : State
  held : List Object
  failure : Option Code

/-- A request of the program.  It frees objects that it holds. -/
inductive Request
  | alloc (size : SizeT)
  | free (index : ℕ)

def request : Request → Session State → Outcome (Session State)
  | .alloc size, session =>
      match alloc cLibrary objects size session.heap with
      | (.ok pointer, heap) =>
          .completed
            { session with heap := heap, held := ⟨pointer, size⟩ :: session.held }
      | (.error code, heap) =>
          .raised { session with heap := heap, failure := some code }
  | .free index, session =>
      match session.held[index]? with
      | none => .completed session
      | some object =>
          .completed
            { session with
              heap := free cLibrary object.pointer session.heap
              held := session.held.filter fun other =>
                other.pointer ≠ object.pointer }

end Program

/-- The bytes of an object. -/
def Object.block (object : Object) : Block 16 :=
  ⟨object.pointer, object.size.toNat⟩

/-- The block that is allocated for an object. -/
def Object.allocated (object : Object) : Block 16 :=
  ⟨object.pointer, (actualSize object.size).toNat⟩

/-- The objects are in memory, apart from each other, and have pointers of their
own even if they have no bytes. -/
structure Sound (held : List Object) : Prop where
  proper : ∀ object ∈ held, object.pointer ≠ 0
  distinct : (held.map Object.pointer).Nodup
  inMemory : ∀ object ∈ held,
    object.pointer.toNat + object.size.toNat ≤ memorySize
  apart : held.Pairwise fun first second => first.block.Apart second.block

section Requests

variable {State : Type*} {cLibrary : Allocator 16 State} {objects : Objects}

theorem size_le_actualSize (size : SizeT) :
    size.toNat ≤ (actualSize size).toNat ∧ 0 < (actualSize size).toNat := by
  unfold actualSize
  split
  · rename_i zero
    rw [zero]
    decide
  · rename_i positive
    refine ⟨le_rfl, Nat.pos_of_ne_zero fun zero => positive ?_⟩
    exact BitVec.eq_of_toNat_eq zero

/-- The objects of the program are the live blocks of the heap. -/
structure Matches (cLibrary : Allocator 16 State) (session : Session State) :
    Prop where
  live : cLibrary.live session.heap = session.held.map Object.allocated
  separated : Separated (cLibrary.live session.heap)

/-- The two ways in which an allocation ends. -/
theorem alloc_cases (cLibrary : Allocator 16 State) (objects : Objects)
    (size : SizeT) (state : State) :
    (∃ pointer, pointer ≠ 0 ∧
      cLibrary.malloc (actualSize size) state =
        (pointer, (alloc cLibrary objects size state).2) ∧
      (alloc cLibrary objects size state).1 = .ok pointer) ∨
    (cLibrary.live (alloc cLibrary objects size state).2 = cLibrary.live state ∧
      (size = sizeLast ∧
          (alloc cLibrary objects size state).1 = .error (objectTooLarge objects) ∨
        size ≠ sizeLast ∧ (cLibrary.malloc (actualSize size) state).1 = 0 ∧
          (alloc cLibrary objects size state).1 =
            .error (heapExhausted objects))) := by
  unfold alloc
  by_cases last : size = sizeLast
  · rw [if_pos last]
    exact Or.inr ⟨rfl, Or.inl ⟨last, rfl⟩⟩
  rw [if_neg last]
  dsimp only
  by_cases null : (cLibrary.malloc (actualSize size) state).1 = 0
  · rw [if_pos null]
    exact Or.inr ⟨cLibrary.fails _ _ null, Or.inr ⟨last, null, rfl⟩⟩
  · rw [if_neg null]
    exact Or.inl ⟨_, null, rfl, rfl⟩

theorem Matches.request {session : Session State}
    (isMatch : Matches cLibrary session) (call : Request) :
    Matches cLibrary (request cLibrary objects call session).state := by
  cases call with
  | alloc size =>
      rw [HeapAllocations.request]
      rcases alloc_cases cLibrary objects size
        session.heap with ⟨pointer, proper, allocated, returned⟩ | ⟨kept, failed⟩
      · generalize alloc cLibrary objects size session.heap = result
          at allocated returned ⊢
        obtain ⟨returned', heap⟩ := result
        subst returned
        have live := cLibrary.allocates (actualSize size) session.heap
        have separated := cLibrary.separated_malloc (actualSize size)
          isMatch.separated
        rw [allocated] at live separated
        refine ⟨?_, separated⟩
        refine (live proper).trans ?_
        rw [isMatch.live]
        rfl
      · generalize alloc cLibrary objects size session.heap = result at kept failed ⊢
        obtain ⟨returned, heap⟩ := result
        have error : ∃ code, returned = .error code := by
          rcases failed with ⟨-, failed⟩ | ⟨-, -, failed⟩
          · exact ⟨_, failed⟩
          · exact ⟨_, failed⟩
        obtain ⟨code, rfl⟩ := error
        refine ⟨kept.trans isMatch.live, ?_⟩
        have separated := isMatch.separated
        rwa [← kept] at separated
  | free index =>
      rw [HeapAllocations.request]
      cases session.held[index]? with
      | none => exact isMatch
      | some object =>
          refine ⟨?_, cLibrary.separated_free object.pointer isMatch.separated⟩
          dsimp only [Outcome.state_completed]
          rw [free, cLibrary.frees, isMatch.live, List.filter_map]
          rfl

theorem Matches.sound {session : Session State} (isMatch : Matches cLibrary session) :
    Sound session.held := by
  obtain ⟨live, separated⟩ := isMatch
  rw [live] at separated
  have apart := List.pairwise_map.mp separated.apart
  constructor
  · intro object member
    exact separated.proper _ (List.mem_map_of_mem member)
  · rw [List.Nodup, List.pairwise_map]
    apply apart.imp
    intro first second isApart
    exact isApart.ne (size_le_actualSize first.size).2
      (size_le_actualSize second.size).2
  · intro object member
    have inMemory := separated.inMemory _ (List.mem_map_of_mem member)
    exact le_trans (Nat.add_le_add_left (size_le_actualSize object.size).1 _)
      inMemory
  · apply apart.imp
    intro first second isApart
    have firstSize := (size_le_actualSize first.size).1
    have secondSize := (size_le_actualSize second.size).1
    simp only [Block.Apart, Object.allocated, Object.block] at isApart ⊢
    omega

theorem matches_run (objects : Objects) {session : Session State}
    (isMatch : Matches cLibrary session) (calls : List Request) :
    Matches cLibrary (run (request cLibrary objects) calls session).state :=
  run_relation (request cLibrary objects)
    (fun before after => Matches cLibrary before → Matches cLibrary after)
    (fun _ => id) (fun first second => second ∘ first)
    (fun call _ isMatch => isMatch.request call) calls session isMatch

end Requests

/-- In every run over any allocator, the objects that the program holds are sound
and are what is live on the heap.  A run ends early only for a request of the
largest size, or for one that the allocator cannot meet, and the program still
holds what it held before. -/
theorem allocations {State : Type*} (cLibrary : Allocator 16 State)
    (objects : Objects) (start : State) (empty : cLibrary.live start = [])
    (calls : List Request) :
    Sound (run (request cLibrary objects) calls ⟨start, [], none⟩).state.held ∧
    cLibrary.live (run (request cLibrary objects) calls
      ⟨start, [], none⟩).state.heap =
        (run (request cLibrary objects) calls ⟨start, [], none⟩).state.held.map
          Object.allocated ∧
    ∀ last, run (request cLibrary objects) calls ⟨start, [], none⟩ = .raised last →
      ∃ before size after session, calls = before ++ .alloc size :: after ∧
        run (request cLibrary objects) before ⟨start, [], none⟩ =
          .completed session ∧
        last.held = session.held ∧
        (size = sizeLast ∧ last.failure = some (objectTooLarge objects) ∨
          size ≠ sizeLast ∧
            (cLibrary.malloc (actualSize size) session.heap).1 = 0 ∧
            last.failure = some (heapExhausted objects)) := by
  have begins : Matches cLibrary ⟨start, [], none⟩ := by
    refine ⟨empty, ?_⟩
    rw [empty]
    exact separated_nil
  have ends := matches_run objects begins calls
  refine ⟨ends.sound, ends.live, ?_⟩
  intro last raised
  obtain ⟨before, call, after, session, rfl, completed, aborts⟩ :=
    exists_of_run_raised _ raised
  cases call with
  | free index =>
      rw [request] at aborts
      split at aborts <;> cases aborts
  | alloc size =>
      refine ⟨before, size, after, session, rfl, completed, ?_⟩
      rw [request] at aborts
      have ways := alloc_cases cLibrary objects size
        session.heap
      generalize alloc cLibrary objects size session.heap = result at aborts ways
      obtain ⟨returned, heap⟩ := result
      cases returned with
      | ok pointer => cases aborts
      | error code =>
          cases aborts
          refine ⟨rfl, ?_⟩
          rcases ways with ⟨_, _, _, returned⟩ |
            ⟨-, ⟨last, failed⟩ | ⟨notLast, null, failed⟩⟩
          · cases returned
          · exact Or.inl ⟨last, congrArg some (Except.error.inj failed)⟩
          · exact Or.inr ⟨notLast, null, congrArg some (Except.error.inj failed)⟩

section Bump

/-- A heap that is used from below and never reused. -/
structure Bump where
  next : ℕ
  live : List (Block 16)
  positive : 0 < next
  below : ∀ block ∈ live, block.address.toNat + block.size ≤ next

def Bump.allocate (size : BitVec 16) (heap : Bump) : Bump where
  next := heap.next + size.toNat
  live := ⟨BitVec.ofNat 16 heap.next, size.toNat⟩ :: heap.live
  positive := Nat.add_pos_left heap.positive _
  below := by
    intro block member
    rcases List.mem_cons.mp member with rfl | older
    · exact Nat.add_le_add_right (Nat.mod_le _ _) _
    · exact le_trans (heap.below block older) (Nat.le_add_right _ _)

def Bump.malloc (size : BitVec 16) (heap : Bump) : BitVec 16 × Bump :=
  if heap.next + size.toNat < 2 ^ 16 then
    (BitVec.ofNat 16 heap.next, heap.allocate size)
  else
    (0, heap)

def Bump.free (address : BitVec 16) (heap : Bump) : Bump where
  next := heap.next
  live := heap.live.filter fun block => block.address ≠ address
  positive := heap.positive
  below block member := heap.below block (List.mem_of_mem_filter member)

theorem Bump.toNat_next {size : BitVec 16} {heap : Bump}
    (fits : heap.next + size.toNat < 2 ^ 16) :
    (BitVec.ofNat 16 heap.next).toNat = heap.next := by
  rw [BitVec.toNat_ofNat, Nat.mod_eq_of_lt (by omega)]

/-- A pointer that is not null is the next address. -/
theorem Bump.malloc_of_ne {size : BitVec 16} {heap : Bump}
    (proper : (heap.malloc size).1 ≠ 0) :
    heap.next + size.toNat < 2 ^ 16 ∧
      heap.malloc size = (BitVec.ofNat 16 heap.next, heap.allocate size) := by
  unfold Bump.malloc at proper ⊢
  split at proper
  · rename_i fits
    exact ⟨fits, if_pos fits⟩
  · exact absurd rfl proper

def bumpAllocator : Allocator 16 Bump where
  malloc size heap := heap.malloc size
  free address heap := heap.free address
  live := Bump.live
  fails size heap null := by
    unfold Bump.malloc at null ⊢
    split
    · rename_i fits
      rw [if_pos fits] at null
      have zero := congrArg BitVec.toNat null
      rw [Bump.toNat_next fits] at zero
      exact absurd zero heap.positive.ne'
    · rfl
  allocates size heap proper := by
    obtain ⟨fits, allocated⟩ := Bump.malloc_of_ne proper
    rw [allocated]
    rfl
  inMemory size heap proper := by
    obtain ⟨fits, allocated⟩ := Bump.malloc_of_ne proper
    rw [allocated, Bump.toNat_next fits]
    exact fits.le
  apart size heap proper block member := by
    obtain ⟨fits, allocated⟩ := Bump.malloc_of_ne proper
    rw [allocated]
    right
    rw [Bump.toNat_next fits]
    exact heap.below block member
  frees _ _ := rfl

end Bump

/-- Two objects without bytes, the first one of them freed, and one that is too
large. -/
theorem allocations_bump :
    Sound (run (request bumpAllocator ⟨2, 4, 6⟩)
      [.alloc 0, .alloc 0, .free 1, .alloc sizeLast]
      ⟨⟨100, [], by decide, by simp⟩, [], none⟩).state.held :=
  (allocations bumpAllocator ⟨2, 4, 6⟩ ⟨100, [], by decide, by simp⟩ rfl _).1

end HeapAllocations

end AdacHybridMsp430
