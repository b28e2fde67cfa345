import AdacHybridMsp430.BitMoves
import AdacHybridMsp430.RuntimeSystem

/-!
# Copies through C pointers

`Interfaces.C.Pointers`, instantiated for elements of some size.  `Copy_Array`
chooses its direction so that no element is overwritten before it is copied.
-/

namespace AdacHybridMsp430

namespace PointerCopies

open BitMoves ByteMemory Target

/-- A pointer, null being the address zero. -/
abbrev Pointer := Address

abbrev PtrdiffT := BitVec 16

/-- The exceptions of the unit. -/
inductive Fault
  | pointerError
  | dereferenceError
deriving DecidableEq

section Program

variable (size : ℕ)

/-- `To_Addr (Elmt_Size * Right)`. -/
def toAddr (right : PtrdiffT) : Address := BitVec.ofNat 16 size * right

/-- `"+"`. -/
def add (left : Pointer) (right : PtrdiffT) : Except Fault Pointer :=
  if left = 0 then .error .pointerError else .ok (left + toAddr size right)

/-- `"-"`. -/
def sub (left : Pointer) (right : PtrdiffT) : Except Fault Pointer :=
  if left = 0 then .error .pointerError else .ok (left - toAddr size right)

def increment (ref : Pointer) : Except Fault Pointer := add size ref 1

/-- `T.all := S.all`. -/
def assign (t s : Pointer) (memory : Memory) : Memory :=
  let (element, memory) := load byteOrder s size memory
  store byteOrder t element memory

/-- An element, as the bytes that it takes in memory. -/
abbrev Element := BitVec (8 * size)

variable {size}

end Program

/-- The accesses of a copy: it loads from its source and stores to its target. -/
def CopyAccess (source target : Address) (count : ℕ) (access : Access 16) : Prop :=
  if access.isStore then access.Inside target count
  else access.Inside source count

/-- The bytes of the target are the old ones of the source, and all others are
as before.  Nothing but the source is read, and nothing but the target written. -/
structure Copied (source target : Address) (count : ℕ) (before after : Memory) :
    Prop where
  inside : ∀ k < count,
    after.contents (target + BitVec.ofNat 16 k) =
      before.contents (source + BitVec.ofNat 16 k)
  outside : ∀ address, (∀ k < count, address ≠ target + BitVec.ofNat 16 k) →
    after.contents address = before.contents address
  accesses : Accesses (CopyAccess source target count) before after

section Steps

variable {size : ℕ}

theorem ofNat_ne_zero {t : ℕ} (positive : 0 < t) (lt : t < 2 ^ 16) :
    BitVec.ofNat 16 t ≠ 0 := by
  intro zero
  have toNat := congrArg BitVec.toNat zero
  rw [BitVec.toNat_ofNat, Nat.mod_eq_of_lt lt] at toNat
  exact positive.ne' toNat

theorem add_ofNat {t count : ℕ} (positive : 0 < t) (lt : t < 2 ^ 16) :
    add size (BitVec.ofNat 16 t) (BitVec.ofNat 16 count) =
      .ok (BitVec.ofNat 16 (t + count * size)) := by
  rw [add, if_neg (ofNat_ne_zero positive lt), toAddr, BitVec.ofNat_add,
    Nat.mul_comm count, BitVec.ofNat_mul]

/-- The bytes from `s` on have been moved to `t`. -/
structure Moves (s t count : ℕ) (before after : Memory) : Prop where
  relocates : Relocates byteOrder (moved (8 * s) (8 * t) (8 * count))
    before.contents after.contents
  accesses : Accesses (CopyAccess (BitVec.ofNat 16 s) (BitVec.ofNat 16 t) count)
    before after

variable {s t n m : ℕ} {before middle after : Memory}

/-- A wider copy is allowed more accesses. -/
theorem CopyAccess.mono {offset : ℕ} {access : Access 16}
    (allowed : CopyAccess (BitVec.ofNat 16 (s + offset))
      (BitVec.ofNat 16 (t + offset)) m access)
    (fits : offset + m ≤ n) (sEnd : s + n < 2 ^ 16) (tEnd : t + n < 2 ^ 16) :
    CopyAccess (BitVec.ofNat 16 s) (BitVec.ofNat 16 t) n access := by
  simp only [CopyAccess, Access.Inside, BitVec.toNat_ofNat] at allowed ⊢
  rw [Nat.mod_eq_of_lt (show s + offset < 2 ^ 16 by omega),
    Nat.mod_eq_of_lt (show t + offset < 2 ^ 16 by omega)] at allowed
  rw [Nat.mod_eq_of_lt (show s < 2 ^ 16 by omega),
    Nat.mod_eq_of_lt (show t < 2 ^ 16 by omega)]
  split at allowed
  · rename_i isStore
    rw [if_pos isStore]
    omega
  · rename_i isLoad
    rw [if_neg isLoad]
    omega

theorem Moves.accesses_within (offset : ℕ)
    (moves : Moves (s + offset) (t + offset) m before after)
    (fits : offset + m ≤ n) (sEnd : s + n < 2 ^ 16) (tEnd : t + n < 2 ^ 16) :
    Accesses (CopyAccess (BitVec.ofNat 16 s) (BitVec.ofNat 16 t) n) before after := by
  apply moves.accesses.mono
  intro access allowed
  exact allowed.mono fits sEnd tEnd

/-- Upwards, if the target is not above the source. -/
theorem Moves.forward (first : Moves s t n before middle)
    (rest : Moves (s + n) (t + n) m middle after) (le : t ≤ s)
    (sEnd : s + (n + m) < 2 ^ 16) (tEnd : t + (n + m) < 2 ^ 16) :
    Moves s t (n + m) before after where
  relocates := by
    have restMoves := rest.relocates
    simp only [Nat.mul_add] at restMoves ⊢
    refine (first.relocates.trans restMoves fun k hk => ?_).congr fun k _ => ?_
    · exact moved_lt (by omega) hk
    · exact moved_moved (Or.inl (by omega)) k
  accesses :=
    (Moves.accesses_within 0 first (by omega) sEnd tEnd).trans
      (rest.accesses_within n (by omega) sEnd tEnd)

/-- Downwards, if the source is not above the target. -/
theorem Moves.backward (upper : Moves (s + n) (t + n) m before middle)
    (rest : Moves s t n middle after) (le : s ≤ t)
    (sEnd : s + (n + m) < 2 ^ 16) (tEnd : t + (n + m) < 2 ^ 16) :
    Moves s t (n + m) before after where
  relocates := by
    have upperMoves := upper.relocates
    simp only [Nat.mul_add] at upperMoves ⊢
    refine (upperMoves.trans rest.relocates fun k hk => ?_).congr fun k _ => ?_
    · exact moved_lt (by omega) hk
    · exact moved_moved_backward (by omega) k
  accesses :=
    (upper.accesses_within n (by omega) sEnd tEnd).trans
      (Moves.accesses_within 0 rest (by omega) sEnd tEnd)

end Steps

section Loops

variable {size : ℕ}

end Loops

section Scan

variable {size : ℕ}

/-- An element from an address on. -/
def elementAt (size : ℕ) (contents : Contents 16) (source : Address) (k : ℕ) :
    Element size :=
  readWord byteOrder contents (source + BitVec.ofNat 16 (k * size)) size

/-- A length goes up to and including the first terminator, or to the limit if
there is none before. -/
structure EndsAt (isTerminator : ℕ → Prop) (limit length : ℕ) : Prop where
  le : length ≤ limit
  before : ∀ k, k + 1 < length → ¬ isTerminator k
  last : length = limit ∨ (0 < length ∧ isTerminator (length - 1))

theorem EndsAt.succ {isTerminator : ℕ → Prop} {limit length : ℕ}
    (ends : EndsAt (fun k => isTerminator (k + 1)) limit length)
    (first : ¬ isTerminator 0) : EndsAt isTerminator (limit + 1) (length + 1) where
  le := Nat.succ_le_succ ends.le
  before k lt := by
    cases k with
    | zero => exact first
    | succ k => exact ends.before k (by omega)
  last := by
    rcases ends.last with same | ⟨positive, last⟩
    · exact Or.inl (congrArg Nat.succ same)
    · refine Or.inr ⟨Nat.succ_pos length, ?_⟩
      rwa [Nat.sub_add_cancel positive] at last

/-- A load of some bytes from an address on. -/
def LoadAccess (source : Address) (count : ℕ) (access : Access 16) : Prop :=
  access.isStore = false ∧ access.Inside source count

theorem LoadAccess.mono {s count larger : ℕ} (offset : ℕ) {access : Access 16}
    (load : LoadAccess (BitVec.ofNat 16 (s + offset)) count access)
    (fits : offset + count ≤ larger) (sEnd : s + larger < 2 ^ 16) :
    LoadAccess (BitVec.ofNat 16 s) larger access := by
  obtain ⟨isLoad, lower, upper⟩ := load
  rw [BitVec.toNat_ofNat, Nat.mod_eq_of_lt (by omega)] at lower upper
  refine ⟨isLoad, ?_, ?_⟩ <;> rw [BitVec.toNat_ofNat, Nat.mod_eq_of_lt (by omega)] <;>
    omega

end Scan

section Results

/-- Moved bits are copied bytes. -/
theorem Moves.copied {source target : Address} {count : ℕ} {before after : Memory}
    (moves : Moves source.toNat target.toNat count before after)
    (sourceEnd : source.toNat + count < 2 ^ 16)
    (targetEnd : target.toNat + count < 2 ^ 16) :
    Copied source target count before after := by
  obtain ⟨relocates, accesses⟩ := moves
  simp only [BitVec.ofNat_toNat, BitVec.setWidth_eq] at accesses
  refine ⟨fun k lt => ?_, fun address outside => ?_, accesses⟩
  · rw [ByteMemory.add_ofNat, ByteMemory.add_ofNat]
    refine relocates.byte (by omega) fun i hi => ?_
    rw [moved_of_inside (by omega) (by omega)]
    omega
  · have kept : after.contents (BitVec.ofNat 16 address.toNat) =
        before.contents (BitVec.ofNat 16 address.toNat) := by
      refine relocates.byte address.isLt fun i hi => moved_of_outside ?_
      rintro ⟨lower, upper⟩
      apply outside (address.toNat - target.toNat) (by omega)
      rw [ByteMemory.add_ofNat, Nat.add_sub_cancel' (by omega), BitVec.ofNat_toNat,
        BitVec.setWidth_eq]
    rwa [BitVec.ofNat_toNat, BitVec.setWidth_eq] at kept

theorem toNat_pos {address : Address} (proper : address ≠ 0) : 0 < address.toNat := by
  rw [Nat.pos_iff_ne_zero]
  intro zero
  exact proper (BitVec.eq_of_toNat_eq zero)

end Results

end PointerCopies

end AdacHybridMsp430
