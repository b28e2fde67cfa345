import AdacHybridMsp430.BitOps

/-!
# Programs of bit array operations

Packed arrays of one length, each in a place of its own, and statements that
compute one of them from others.  A program of calls to `System.Bit_Ops` in
memory computes what the same program computes on functions from indices to
truth values.
-/

namespace AdacHybridMsp430

namespace BitOps

open ByteMemory Target

/-- The places of some bit arrays. -/
structure Places (n : ℕ) where
  len : ℕ
  place : Fin n → Address
  inMemory : ∀ s, (place s).toNat + (len + 7) / 8 ≤ memorySize
  apart : ∀ s t, s ≠ t →
    (place s).toNat + (len + 7) / 8 ≤ (place t).toNat ∨
      (place t).toNat + (len + 7) / 8 ≤ (place s).toNat

/-- What is computed from some of the arrays. -/
inductive Operation (n : ℕ)
  | and (left right : Fin n)
  | or (left right : Fin n)
  | xor (left right : Fin n)
  | not (opnd : Fin n)
deriving DecidableEq

/-- An assignment of an operation to an array. -/
structure Statement (n : ℕ) where
  result : Fin n
  operation : Operation n

section Abstract

variable {n : ℕ}

/-- The truth value of an operation. -/
def Operation.value (bit : Fin n → Bool) : Operation n → Bool
  | .and left right => bit left && bit right
  | .or left right => bit left || bit right
  | .xor left right => bit left ^^ bit right
  | .not opnd => !bit opnd

/-- The truth values at one index after a program. -/
def evaluate (program : List (Statement n)) (bit : Fin n → Bool) : Fin n → Bool :=
  program.foldl
    (fun bit statement =>
      Function.update bit statement.result (statement.operation.value bit))
    bit

end Abstract

namespace Places

variable {n : ℕ} (places : Places n)

theorem sameOrApart (s t : Fin n) :
    SameOrApart ((places.len + 7) / 8) (places.place s) (places.place t) := by
  by_cases same : s = t
  · exact Or.inl (congrArg places.place same)
  · exact Or.inr (places.apart s t same)

/-- The routine for an operation. -/
def routine : Operation n → Routine
  | .and left right => .bitAnd (places.place left) (places.place right)
  | .or left right => .bitOr (places.place left) (places.place right)
  | .xor left right => .bitXor (places.place left) (places.place right)
  | .not opnd => .bitNot (places.place opnd)

/-- The operands of a routine are among the arrays. -/
theorem operands_routine (operation : Operation n) :
    ∃ slots : List (Fin n),
      (places.routine operation).operands = slots.map places.place := by
  cases operation with
  | and left right => exact ⟨[left, right], rfl⟩
  | or left right => exact ⟨[left, right], rfl⟩
  | xor left right => exact ⟨[left, right], rfl⟩
  | not opnd => exact ⟨[opnd], rfl⟩

/-- The call for a statement. -/
def call (statement : Statement n) : Call where
  routine := places.routine statement.operation
  len := places.len
  result := places.place statement.result
  inMemory := by
    obtain ⟨slots, areOperands⟩ := places.operands_routine statement.operation
    rw [areOperands, ← List.map_cons, List.forall_mem_map]
    exact fun s _ => places.inMemory s
  separate := by
    obtain ⟨slots, areOperands⟩ := places.operands_routine statement.operation
    rw [areOperands, ← List.map_cons, List.pairwise_map]
    exact List.pairwise_of_forall places.sameOrApart

/-- What memory holds after the calls of a program. -/
def run (program : List (Statement n)) (contents : Contents 16) : Contents 16 :=
  program.foldl
    (fun contents statement =>
      ((places.call statement).run (fresh contents)).contents)
    contents

/-- `Bit_And` is only right for some lengths. -/
def Covers (operation : Operation n) : Prop :=
  match operation with
  | .and _ _ => places.len = 8 ∨ places.len = 16 ∨ 24 < places.len ∧ places.len ≤ 32
  | _ => True

/-- The bits of the arrays at an index. -/
def bits (contents : Contents 16) (i : ℕ) (s : Fin n) : Bool :=
  arrayBit contents i (places.place s)

variable {places}

theorem supported_call {statement : Statement n}
    (covers : places.Covers statement.operation) (contents : Contents 16) :
    (places.call statement).Supported contents := by
  obtain ⟨result, operation⟩ := statement
  cases operation with
  | and left right =>
      rcases covers with byte | word | ⟨above, upTo⟩
      · exact Or.inl byte
      · exact Or.inr (Or.inl word)
      · refine Or.inr (Or.inr ⟨above, fun i from32 below => ?_⟩)
        exact absurd (lt_of_lt_of_le below upTo) (Nat.not_lt.mpr from32)
  | or left right => trivial
  | xor left right => trivial
  | not opnd => trivial

theorem value_routine (operation : Operation n) (contents : Contents 16) (i : ℕ) :
    (places.routine operation).value (arrayBit contents i) =
      operation.value (places.bits contents i) := by
  cases operation <;> rfl

/-- A byte of another array keeps its bits. -/
theorem arrayBit_eq_of_apart {before after : Contents 16} {s t : Fin n}
    (different : s ≠ t) {i : ℕ} (below : i < places.len)
    (unchanged : ∀ address : Address,
      (address.toNat < (places.place t).toNat ∨
        (places.place t).toNat + (places.len + 7) / 8 ≤ address.toNat) →
      after address = before address) :
    places.bits after i s = places.bits before i s := by
  have inMemory := places.inMemory s
  have apart := places.apart s t different
  unfold memorySize at inMemory
  have byte : (8 * (places.place s).toNat + i) / 8 =
      (places.place s).toNat + i / 8 := by
    omega
  have address : (BitVec.ofNat 16 ((places.place s).toNat + i / 8)).toNat =
      (places.place s).toNat + i / 8 := by
    rw [BitVec.toNat_ofNat, Nat.mod_eq_of_lt (by omega)]
  rw [bits, bits, arrayBit, arrayBit, bitAt, bitAt, byte, unchanged]
  rw [address]
  omega

/-- One call computes one statement. -/
theorem bits_call {statement : Statement n}
    (covers : places.Covers statement.operation) (contents : Contents 16)
    {i : ℕ} (below : i < places.len) :
    places.bits ((places.call statement).run (fresh contents)).contents i =
      Function.update (places.bits contents i) statement.result
        (statement.operation.value (places.bits contents i)) := by
  have meets := (meets_run_iff (places.call statement) contents).mpr
    (supported_call covers contents)
  funext s
  by_cases same : s = statement.result
  · rw [same, Function.update_self, ← value_routine]
    exact meets.computed i below
  · rw [Function.update_of_ne same]
    exact arrayBit_eq_of_apart same below meets.unchanged

end Places

/-- Memory after the calls of a program holds what the program computes on truth
values, index by index, and the bytes outside of the arrays are as before. -/
theorem programs {n : ℕ} (places : Places n) (program : List (Statement n))
    (covers : ∀ statement ∈ program, places.Covers statement.operation)
    (contents : Contents 16) :
    (∀ i < places.len, places.bits (places.run program contents) i =
      evaluate program (places.bits contents i)) ∧
    ∀ address : Address,
      (∀ s, address.toNat < (places.place s).toNat ∨
        (places.place s).toNat + (places.len + 7) / 8 ≤ address.toNat) →
      places.run program contents address = contents address := by
  induction program generalizing contents with
  | nil => exact ⟨fun _ _ => rfl, fun _ _ => rfl⟩
  | cons statement program ih =>
      have covered := covers statement List.mem_cons_self
      obtain ⟨computed, unchanged⟩ := ih
        (fun other member => covers other (List.mem_cons_of_mem _ member))
        ((places.call statement).run (fresh contents)).contents
      have meets := (meets_run_iff (places.call statement) contents).mpr
        (Places.supported_call covered contents)
      constructor
      · intro i below
        refine (computed i below).trans ?_
        rw [Places.bits_call covered contents below]
        rfl
      · intro address outside
        exact (unchanged address outside).trans
          (meets.unchanged address (outside statement.result))

/-- Two arrays of 13 bits, in neighbouring words. -/
def twoArrays : Places 2 where
  len := 13
  place s := BitVec.ofNat 16 (0x200 + 2 * s)
  inMemory := by decide
  apart := by decide

/-- An exchange of two arrays. -/
def exchange : List (Statement 2) :=
  [⟨0, .xor 0 1⟩, ⟨1, .xor 0 1⟩, ⟨0, .xor 0 1⟩]

theorem programs_exchange :
    twoArrays.bits (twoArrays.run exchange fun address => address.setWidth 8) 9 =
      evaluate exchange (twoArrays.bits (fun address => address.setWidth 8) 9) :=
  (programs twoArrays exchange (by
    intro statement member
    simp only [exchange, List.mem_cons, List.not_mem_nil, or_false] at member
    rcases member with rfl | rfl | rfl <;> trivial) _).1 9 (by decide)

end BitOps

end AdacHybridMsp430
