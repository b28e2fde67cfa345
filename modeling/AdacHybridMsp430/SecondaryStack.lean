import AdacHybridMsp430.MarkRelease
import AdacHybridMsp430.RuntimeSystem

/-!
# The secondary stack

The static secondary stack of the run-time, with its 16-bit marks.  Every run
of allocations, marks and releases keeps the stack within its chunk, and the
live blocks inside the chunk, aligned, and apart from each other.
-/

namespace AdacHybridMsp430

namespace SecondaryStack

open MarkRelease Target

/-- `Mark_Id`, a modular type like `Integer_Address`. -/
abbrev MarkId := BitVec 16

/-- `Storage_Count`, the nonnegative half of a 16-bit range. -/
abbrev StorageCount := Fin (2 ^ 15)

def defaultSecondaryStackSize : ℕ := 512

/-- `Mark_Id'Max_Size_In_Storage_Elements`. -/
def markIdSize : ℕ := 2

/-- The place of `Static_Chunk` in memory, with the alignment of its
representation clause. -/
structure Placement where
  maximumAlignment : ℕ
  maximumAlignment_dvd : maximumAlignment ∣ 4
  staticChunk : Address
  aligned : maximumAlignment ∣ staticChunk.toNat
  inMemory : staticChunk.toNat + defaultSecondaryStackSize ≤ memorySize

/-- `Is_Initialized` and the header at the start of the chunk. -/
structure Stack where
  isInitialized : Bool
  top : MarkId
  last : MarkId
deriving DecidableEq

/-- The first index of `Mem`. -/
def memFirst : MarkId := 1

def ssInit (size : ℕ) (stack : Stack) : Stack where
  isInitialized := stack.isInitialized
  top := memFirst
  last := BitVec.ofNat 16 size - BitVec.ofNat 16 (2 * markIdSize)

def getSecStack (stack : Stack) : Stack :=
  if stack.isInitialized then stack
  else ssInit defaultSecondaryStackSize { stack with isInitialized := true }

/-- `Mem (Index)'Address`; `Mem` follows `Top` and `Last`. -/
def memAddress (place : Placement) (index : MarkId) : Address :=
  place.staticChunk + BitVec.ofNat 16 (2 * markIdSize) + (index - memFirst)

/-- `Max_Size`: the storage size, rounded up to the alignment. -/
def maxSize (place : Placement) (storageSize : StorageCount) : MarkId :=
  let maxAlign := BitVec.ofNat 16 place.maximumAlignment
  (BitVec.ofNat 16 storageSize + maxAlign - 1) / maxAlign * maxAlign

/-- There is no address when `Storage_Error` is raised. -/
def ssAllocate (place : Placement) (storageSize : StorageCount)
    (stack : Stack) : Option Address × Stack :=
  let secStack := getSecStack stack
  let size := maxSize place storageSize
  if secStack.top + size > secStack.last then
    (none, secStack)
  else
    (some (memAddress place secStack.top),
      { secStack with top := secStack.top + size })

def ssMark (stack : Stack) : MarkId × Stack :=
  ((getSecStack stack).top, getSecStack stack)

def ssRelease (mark : MarkId) (stack : Stack) : Stack :=
  { getSecStack stack with top := mark }

/-- An allocated block, as its user knows it. -/
structure Block where
  address : Address
  storageSize : StorageCount

/-- The stack with the live blocks and the outstanding marks. -/
structure Session where
  stack : Stack
  history : List (Entry MarkId Block)

/-- An operation of the user.  A release names an outstanding mark by how many
are newer; the marks and blocks after it are gone then. -/
inductive Operation
  | allocate (storageSize : StorageCount)
  | mark
  | release (newer : ℕ)

def Session.perform (place : Placement) (session : Session) :
    Operation → Session
  | .allocate storageSize =>
      match ssAllocate place storageSize session.stack with
      | (none, stack) => { session with stack := stack }
      | (some address, stack) =>
          { stack := stack
            history := .block ⟨address, storageSize⟩ :: session.history }
  | .mark =>
      { stack := (ssMark session.stack).2
        history := .mark (ssMark session.stack).1 :: session.history }
  | .release newer =>
      match releaseTo newer session.history with
      | none => session
      | some (mark, history) =>
          { stack := ssRelease mark session.stack
            history := history }

/-- The uninitialised stack; its header may hold anything. -/
def start (top last : MarkId) : Session where
  stack := { isInitialized := false, top := top, last := last }
  history := []

def runOperations (place : Placement) (operations : List Operation)
    (session : Session) : Session :=
  operations.foldl (Session.perform place) session

/-- The top is an index of `Mem` up to the last one. -/
def Stack.InBounds (stack : Stack) : Prop :=
  1 ≤ stack.top ∧ stack.top ≤ stack.last

/-- A session is sound: the stack is within its bounds, once it is initialised
and as `Get_Sec_Stack` returns it; the live blocks are in the chunk behind the
header, aligned, and apart; the sums of the next allocation do not wrap around;
and if it raises `Storage_Error`, it changes nothing. -/
structure Sound (place : Placement) (session : Session) : Prop where
  initialized : session.stack.isInitialized = true → session.stack.InBounds
  returned : (getSecStack session.stack).InBounds
  inside : ∀ block ∈ blocks session.history,
    place.staticChunk.toNat + 2 * markIdSize ≤ block.address.toNat ∧
      block.address.toNat + (block.storageSize : ℕ) ≤
        place.staticChunk.toNat + defaultSecondaryStackSize
  aligned : ∀ block ∈ blocks session.history,
    place.maximumAlignment ∣ block.address.toNat
  apart : (blocks session.history).Pairwise fun newer older =>
    older.address.toNat + (older.storageSize : ℕ) ≤ newer.address.toNat
  noWrap : ∀ storageSize : StorageCount,
    storageSize + place.maximumAlignment < 2 ^ 16 ∧
      (getSecStack session.stack).top.toNat +
        (maxSize place storageSize).toNat < 2 ^ 16
  refused : ∀ storageSize : StorageCount,
    (ssAllocate place storageSize session.stack).1 = none →
      let next := session.perform place (.allocate storageSize)
      getSecStack next.stack = getSecStack session.stack ∧
        next.history = session.history

section Sizes

variable (place : Placement)

theorem Placement.maximumAlignment_bounds :
    0 < place.maximumAlignment ∧ place.maximumAlignment ≤ 4 :=
  ⟨Nat.pos_of_dvd_of_pos place.maximumAlignment_dvd (by decide),
    Nat.le_of_dvd (by decide) place.maximumAlignment_dvd⟩

/-- The storage that a block occupies. -/
def reserved (block : Block) : ℕ :=
  (maxSize place block.storageSize).toNat

/-- Rounding up does not wrap around. -/
theorem toNat_maxSize (storageSize : StorageCount) :
    (maxSize place storageSize).toNat =
      (storageSize + place.maximumAlignment - 1) / place.maximumAlignment *
        place.maximumAlignment := by
  obtain ⟨positive, small⟩ := place.maximumAlignment_bounds
  have sizeBound : (storageSize : ℕ) < 2 ^ 15 := storageSize.isLt
  have sum : (BitVec.ofNat 16 storageSize +
      BitVec.ofNat 16 place.maximumAlignment - 1).toNat =
        storageSize + place.maximumAlignment - 1 := by
    have one : (1 : MarkId).toNat = 1 := rfl
    simp only [BitVec.toNat_sub, BitVec.toNat_add, BitVec.toNat_ofNat, one]
    omega
  have alignment : (BitVec.ofNat 16 place.maximumAlignment).toNat =
      place.maximumAlignment := by
    rw [BitVec.toNat_ofNat]
    omega
  have rounded := Nat.div_mul_le_self
    (storageSize + place.maximumAlignment - 1) place.maximumAlignment
  rw [maxSize, BitVec.toNat_mul, BitVec.toNat_udiv, sum, alignment]
  exact Nat.mod_eq_of_lt (by omega)

theorem storageSize_le_maxSize (storageSize : StorageCount) :
    storageSize ≤ (maxSize place storageSize).toNat := by
  have split := Nat.div_add_mod (storageSize + place.maximumAlignment - 1)
    place.maximumAlignment
  have remainder := Nat.mod_lt (storageSize + place.maximumAlignment - 1)
    place.maximumAlignment_bounds.1
  rw [toNat_maxSize, Nat.mul_comm]
  omega

theorem maxSize_le (storageSize : StorageCount) :
    (maxSize place storageSize).toNat ≤ storageSize + 3 := by
  have rounded := Nat.div_mul_le_self
    (storageSize + place.maximumAlignment - 1) place.maximumAlignment
  have small := place.maximumAlignment_bounds.2
  rw [toNat_maxSize]
  omega

theorem dvd_reserved (block : Block) :
    place.maximumAlignment ∣ reserved place block := by
  rw [reserved, toNat_maxSize]
  exact Nat.dvd_mul_left _ _

end Sizes

section Invariant

/-- The invariant of a session: the last index is 508, the top is the height of
the history, and marks and blocks are where the history puts them. -/
structure Invariant (place : Placement) (session : Session) : Prop where
  last : (getSecStack session.stack).last = 508
  top : (getSecStack session.stack).top.toNat =
    height (reserved place) session.history + 1
  room : height (reserved place) session.history ≤ 507
  placed : Placed (reserved place)
    (fun mark offset => mark.toNat = offset + 1)
    (fun block offset => block.address.toNat =
      place.staticChunk.toNat + 2 * markIdSize + offset)
    session.history

variable (place : Placement)

theorem invariant_start (top last : MarkId) :
    Invariant place (start top last) where
  last := rfl
  top := rfl
  room := by simp [start, height]
  placed := trivial

@[simp]
theorem getSecStack_getSecStack (stack : Stack) :
    getSecStack (getSecStack stack) = getSecStack stack := by
  unfold getSecStack
  cases initialized : stack.isInitialized with
  | true => simp [initialized]
  | false => simp [ssInit]

theorem isInitialized_getSecStack (stack : Stack) :
    (getSecStack stack).isInitialized = true := by
  unfold getSecStack
  cases initialized : stack.isInitialized with
  | true => simpa using initialized
  | false => rfl

/-- The stack is initialised once; its fields are kept then. -/
theorem getSecStack_with_top (stack : Stack) (top : MarkId) :
    getSecStack { getSecStack stack with top := top } =
      { getSecStack stack with top := top } := by
  rw [getSecStack, if_pos (isInitialized_getSecStack stack)]

theorem getSecStack_ssRelease (mark : MarkId) (stack : Stack) :
    getSecStack (ssRelease mark stack) = ssRelease mark stack :=
  getSecStack_with_top stack mark

variable {place} {session : Session} (invariant : Invariant place session)

include invariant

/-- The sum that an allocation compares does not wrap around. -/
theorem Invariant.toNat_sum (storageSize : StorageCount) :
    ((getSecStack session.stack).top + maxSize place storageSize).toNat =
      height (reserved place) session.history + 1 +
        (maxSize place storageSize).toNat := by
  have sizeBound := maxSize_le place storageSize
  have sizeLt := storageSize.isLt
  have room := invariant.room
  rw [BitVec.toNat_add, invariant.top, Nat.mod_eq_of_lt (by omega)]

theorem Invariant.toNat_memAddress :
    (memAddress place (getSecStack session.stack).top).toNat =
      place.staticChunk.toNat + 2 * markIdSize +
        height (reserved place) session.history := by
  have room := invariant.room
  have inMemory := place.inMemory
  have first : memFirst.toNat = 1 := rfl
  simp only [memorySize, defaultSecondaryStackSize] at inMemory
  simp only [memAddress, BitVec.toNat_add, BitVec.toNat_sub,
    BitVec.toNat_ofNat, invariant.top, first, markIdSize]
  omega

/-- An allocation raises `Storage_Error` or puts a block on top. -/
theorem Invariant.ssAllocate_cases (storageSize : StorageCount) :
    (507 < height (reserved place) session.history +
        (maxSize place storageSize).toNat ∧
      ssAllocate place storageSize session.stack =
        (none, getSecStack session.stack)) ∨
    (height (reserved place) session.history +
        (maxSize place storageSize).toNat ≤ 507 ∧
      ssAllocate place storageSize session.stack =
        (some (memAddress place (getSecStack session.stack).top),
          { getSecStack session.stack with
            top := (getSecStack session.stack).top +
              maxSize place storageSize })) := by
  have sum := invariant.toNat_sum storageSize
  have last : (getSecStack session.stack).last.toNat = 508 := by
    rw [invariant.last]
    rfl
  have exceeds : ((getSecStack session.stack).top + maxSize place storageSize >
      (getSecStack session.stack).last) ↔
      507 < height (reserved place) session.history +
        (maxSize place storageSize).toNat := by
    rw [gt_iff_lt, BitVec.lt_def, last, sum]
    omega
  by_cases full : 507 < height (reserved place) session.history +
      (maxSize place storageSize).toNat
  · exact Or.inl ⟨full, if_pos (exceeds.mpr full)⟩
  · exact Or.inr ⟨by omega, if_neg (exceeds.not.mpr full)⟩

/-- Every operation keeps the invariant. -/
theorem Invariant.perform (operation : Operation) :
    Invariant place (session.perform place operation) := by
  cases operation with
  | allocate storageSize =>
      rcases invariant.ssAllocate_cases storageSize with
        ⟨_, refused⟩ | ⟨fits, allocated⟩
      · simp only [Session.perform, refused]
        exact
          { last := by rw [getSecStack_getSecStack]; exact invariant.last
            top := by rw [getSecStack_getSecStack]; exact invariant.top
            room := invariant.room
            placed := invariant.placed }
      · simp only [Session.perform, allocated]
        refine ⟨?_, ?_, fits, invariant.toNat_memAddress, invariant.placed⟩
        · rw [getSecStack_with_top]
          exact invariant.last
        · rw [getSecStack_with_top, invariant.toNat_sum, height]
          simp only [reserved]
          omega
  | mark =>
      exact
        { last := by
            simp only [Session.perform, ssMark, getSecStack_getSecStack]
            exact invariant.last
          top := by
            simp only [Session.perform, ssMark, getSecStack_getSecStack]
            exact invariant.top
          room := invariant.room
          placed := ⟨invariant.top, invariant.placed⟩ }
  | release newer =>
      simp only [Session.perform]
      cases released : releaseTo newer session.history with
      | none => exact invariant
      | some found =>
          obtain ⟨mark, history⟩ := found
          obtain ⟨isSuffix, older, rfl⟩ := releaseTo_eq_some released
          have placed := invariant.placed.of_suffix isSuffix
          have lower := height_le_of_suffix (reserved place) isSuffix
          refine ⟨?_, ?_, lower.trans invariant.room, placed⟩
          · rw [getSecStack_ssRelease]
            exact invariant.last
          · rw [getSecStack_ssRelease]
            exact placed.1

/-- A live block occupies a range of offsets behind the header. -/
theorem Invariant.exists_offset {block : Block}
    (live : block ∈ blocks session.history) :
    ∃ offset, block.address.toNat =
        place.staticChunk.toNat + 2 * markIdSize + offset ∧
      offset + reserved place block ≤ 507 ∧
      place.maximumAlignment ∣ offset := by
  obtain ⟨older, isSuffix, located⟩ := invariant.placed.exists_older live
  have bound := height_le_of_suffix (reserved place) isSuffix
  exact ⟨height (reserved place) older, located, bound.trans invariant.room,
    dvd_height (dvd_reserved place) older⟩

theorem Invariant.inBounds : (getSecStack session.stack).InBounds := by
  have top := invariant.top
  have room := invariant.room
  have one : (1 : MarkId).toNat = 1 := rfl
  have last : (508 : MarkId).toNat = 508 := rfl
  rw [Stack.InBounds, invariant.last, BitVec.le_def, BitVec.le_def, one, last]
  omega

/-- The invariant makes a session sound. -/
theorem Invariant.sound : Sound place session where
  initialized initialized := by
    have same : getSecStack session.stack = session.stack := if_pos initialized
    rw [← same]
    exact invariant.inBounds
  returned := invariant.inBounds
  inside block live := by
    obtain ⟨offset, located, bound, _⟩ := invariant.exists_offset live
    have size := storageSize_le_maxSize place block.storageSize
    simp only [reserved, markIdSize, defaultSecondaryStackSize] at *
    omega
  aligned block live := by
    obtain ⟨offset, located, _, multiple⟩ := invariant.exists_offset live
    rw [located]
    exact Nat.dvd_add (Nat.dvd_add place.aligned place.maximumAlignment_dvd)
      multiple
  apart := invariant.placed.pairwise.imp fun {newer older} separated => by
    obtain ⟨above, below, newerAt, olderAt, bound⟩ := separated
    have size := storageSize_le_maxSize place older.storageSize
    simp only [reserved] at bound
    omega
  noWrap storageSize := by
    have size := maxSize_le place storageSize
    have sizeLt := storageSize.isLt
    have room := invariant.room
    have small := place.maximumAlignment_bounds.2
    rw [invariant.top]
    omega
  refused storageSize none := by
    rcases invariant.ssAllocate_cases storageSize with
      ⟨_, refused⟩ | ⟨_, allocated⟩
    · simp [Session.perform, refused]
    · simp [allocated] at none

end Invariant

/-- Every run from the uninitialised stack keeps the invariant. -/
theorem invariant_runOperations (place : Placement) (top last : MarkId)
    (operations : List Operation) :
    Invariant place (runOperations place operations (start top last)) := by
  have fromStart := invariant_start place top last
  rw [runOperations]
  generalize start top last = session at fromStart
  induction operations generalizing session with
  | nil => exact fromStart
  | cons operation operations ih => exact ih _ (fromStart.perform operation)

/-- Every run from the uninitialised stack is sound in all its states. -/
theorem sound_runOperations (place : Placement) (top last : MarkId)
    (operations : List Operation) :
    Sound place (runOperations place operations (start top last)) :=
  (invariant_runOperations place top last operations).sound

section Capacity

/-- The bytes from `Top`, the first free one, to `Last`, the final usable one. -/
def freeBytes (stack : Stack) : ℕ :=
  stack.last.toNat - stack.top.toNat + 1

/-- A request, rounded up to the next multiple of the alignment. -/
def roundedRequest (place : Placement) (storageSize : StorageCount) : ℕ :=
  (storageSize + place.maximumAlignment - 1) / place.maximumAlignment *
    place.maximumAlignment

/-- A request is refused only where it exceeds the free bytes, and a request
that fits exactly is served. -/
def ExactAbout (place : Placement) (session : Session)
    (storageSize : StorageCount) : Prop :=
  ((ssAllocate place storageSize session.stack).1 = none →
    freeBytes (getSecStack session.stack) < roundedRequest place storageSize) ∧
  (roundedRequest place storageSize = freeBytes (getSecStack session.stack) →
    (ssAllocate place storageSize session.stack).1.isSome)

variable {place : Placement} {session : Session}

theorem Invariant.freeBytes_eq (invariant : Invariant place session) :
    freeBytes (getSecStack session.stack) =
      508 - height (reserved place) session.history := by
  have last : (508 : MarkId).toNat = 508 := rfl
  have room := invariant.room
  rw [freeBytes, invariant.last, invariant.top, last]
  omega

/-- `SS_Allocate` wants a byte to spare behind the block. -/
theorem Invariant.ssAllocate_eq_none_iff (invariant : Invariant place session)
    (storageSize : StorageCount) :
    (ssAllocate place storageSize session.stack).1 = none ↔
      freeBytes (getSecStack session.stack) ≤ roundedRequest place storageSize := by
  have free := invariant.freeBytes_eq
  have room := invariant.room
  have rounded : (maxSize place storageSize).toNat =
      roundedRequest place storageSize := toNat_maxSize place storageSize
  rcases invariant.ssAllocate_cases storageSize with
    ⟨exceeds, refused⟩ | ⟨fits, allocated⟩
  · simp only [refused, true_iff]
    omega
  · simp only [allocated, reduceCtorEq, false_iff, not_le]
    omega

/-- In every state that a run reaches, a request is treated exactly, unless its
rounded size is just the number of free bytes. -/
theorem exactAbout_iff (place : Placement) (top last : MarkId)
    (operations : List Operation) (storageSize : StorageCount) :
    ExactAbout place (runOperations place operations (start top last))
        storageSize ↔
      roundedRequest place storageSize ≠
        freeBytes (getSecStack
          (runOperations place operations (start top last)).stack) := by
  have invariant := invariant_runOperations place top last operations
  generalize runOperations place operations (start top last) = session
    at invariant
  have refused := invariant.ssAllocate_eq_none_iff storageSize
  constructor
  · intro exact same
    have served := exact.2 same
    rw [Option.isSome_iff_ne_none] at served
    exact served (refused.mpr same.ge)
  · intro different
    constructor
    · intro none
      have atMost := refused.mp none
      omega
    · intro same
      exact absurd same different

/-- On the fresh stack, the request for all the 508 bytes is refused. -/
theorem not_exactAbout_allBytes :
    let place : Placement :=
      { maximumAlignment := 2
        maximumAlignment_dvd := by decide
        staticChunk := 0x200
        aligned := by decide
        inMemory := by decide }
    ¬ ExactAbout place (runOperations place [] (start 0 0)) 508 := by
  intro place exact
  have served := exact.2 (by decide)
  exact absurd served (by decide)

end Capacity

end SecondaryStack

end AdacHybridMsp430
