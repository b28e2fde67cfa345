import AdacHybridMsp430.ByteMemory

/-!
# The target description

The parameters of package `System` that the run-time units depend on.
-/

namespace AdacHybridMsp430

namespace Target

def storageUnit : ℕ := 8
def memorySize : ℕ := 2 ^ 16

/-- `System.Address`, a modular type with `Memory_Size` values. -/
abbrev Address := BitVec 16

/-- `System.Bit_Order`. -/
inductive BitOrder
  | highOrderFirst
  | lowOrderFirst
deriving DecidableEq

def defaultBitOrder : BitOrder := .highOrderFirst

/-- The memory of the MSP430, which stores words in little-endian order. -/
abbrev Memory := ByteMemory.Memory 16

def byteOrder : ByteMemory.ByteOrder := .little

/-- `Integer`.  The run-time is built without checks, so that its arithmetic
wraps around. -/
abbrev Integer := BitVec 32

abbrev LongLongInteger := BitVec 64

abbrev Unsigned := BitVec 32

abbrev LongLongUnsigned := BitVec 64

def integerFirst : Integer := BitVec.intMin 32

end Target

end AdacHybridMsp430
