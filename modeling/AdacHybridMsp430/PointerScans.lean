import AdacHybridMsp430.BoundedLoops
import AdacHybridMsp430.PointerCopies

/-!
# Arithmetic and scans with C pointers

The rest of `Interfaces.C.Pointers`: distances of pointers, and the functions
that look for a terminator.  The addresses wrap around, so that a scan may meet
the null pointer or never end.
-/

namespace AdacHybridMsp430

namespace PointerCopies

open BoundedLoops ByteMemory Target

section Program

variable (size : ℕ)

/-- `"-"` of two pointers. -/
def difference (left right : Pointer) : Except Fault PtrdiffT :=
  if left = 0 ∨ right = 0 then .error .pointerError
  else .ok ((left - right).sdiv (BitVec.ofNat 16 size))

/-- The discrete type of the indices, with its base type. -/
structure IndexType (I : Type*) where
  first : I
  pos : I → ℤ
  val : ℤ → I

/-- `Index_Base'Succ`. -/
def IndexType.succ {I : Type*} (index : IndexType I) (i : I) : I :=
  index.val (index.pos i + 1)

/-- An array of elements, with its bounds. -/
structure ElementArray (I : Type*) where
  first : I
  last : I
  elements : List (Element size)

variable {size}
variable {I V : Type*}

/-- `To_PA (Ref).all`, for the given bounds. -/
def slice (index : IndexType I) (l h : I) (contents : Contents 16)
    (ref : Pointer) : ElementArray size I where
  first := l
  last := h
  elements := (List.range (index.pos h - index.pos l + 1).toNat).map
    (elementAt size contents ref)

/-- A pass of the loops that look for the terminator. -/
def scanPass (equal : Element size → Element size → Bool)
    (terminator : Element size) (contents : Contents 16) (next : V → V) :
    V × Pointer → Except Fault V ⊕ V × Pointer
  | (value, p) =>
      if equal (readWord byteOrder contents p size) terminator then
        .inl (.ok value)
      else
        match increment size p with
        | .error fault => .inl (.error fault)
        | .ok p => .inr (next value, p)

/-- `Value`, up to the terminator. -/
def value (index : IndexType I) (equal : Element size → Element size → Bool)
    (contents : Contents 16) (fuel : ℕ) (ref : Pointer)
    (terminator : Element size) :
    Option (Except Fault (ElementArray size I)) :=
  if ref = 0 then some (.error .dereferenceError)
  else
    (loop (scanPass equal terminator contents index.succ) fuel
      (index.first, ref)).map fun ended =>
        ended.map fun h => slice index index.first h contents ref

end Program

section Arithmetic

variable {size : ℕ}

end Arithmetic

section Scans

variable {size : ℕ} {I V : Type*}
variable (equal : Element size → Element size → Bool)
variable (contents : Contents 16) (ref : Pointer) (terminator : Element size)

end Scans

section Results

variable {size : ℕ} {I : Type*}
variable (index : IndexType I) (equal : Element size → Element size → Bool)
variable (contents : Contents 16) (ref : Pointer) (terminator : Element size)

end Results

end PointerCopies

end AdacHybridMsp430
