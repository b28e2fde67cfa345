import AdacHybridMsp430.BitfieldUtils
import AdacHybridMsp430.FloatAttributes
import AdacHybridMsp430.FloatComparisons

/-!
# Validity of floating-point objects

`Valid` looks at the word of an object that has its exponent, and does not load
the object as a number, which could be a signalling NaN.
-/

namespace AdacHybridMsp430

namespace FloatValidity

open BitfieldUtils ByteMemory FloatAttributes FloatComparisons Target

abbrev FloatWord := BitVec (8 * 2)

section Model

variable (package : Package)

def ieeeEmin : ℤ := machineEmin package.format - 1

def ieeeEmax : ℤ := machineEmax package.format - 1

def ieeeBias : ℤ := -(ieeeEmin package - 1)

/-- `Float'Size` in bytes. -/
def bytes : Package → ℕ
  | .fatFlt => 4
  | .fatLFlt => 8

/-- `Float'Mantissa`, which comes from the decimal digits of the type. -/
def mantissa : Package → ℕ
  | .fatFlt => 21
  | .fatLFlt => 51

def repWords : ℕ := (8 * bytes package + 16 - 1) / 16

def repLast : ℕ := min (repWords package - 1) ((mantissa package + 16) / 16)

/-- `Standard'Default_Bit_Order`, as a number. -/
def position : BitOrder → ℕ
  | .highOrderFirst => 0
  | .lowOrderFirst => 1

variable (standard : BitOrder)

def mostSignificantWord : ℕ := repLast package * position standard

def exponentFactor : FloatWord :=
  2 ^ 15 / BitVec.ofInt _ (ieeeEmax package - ieeeEmin package + 3) *
      (if mostSignificantWord package standard ≠ 2 then 1 else 0) +
    (if mostSignificantWord package standard = 2 then 1 else 0)

def exponentMask : FloatWord :=
  BitVec.ofInt _ (ieeeEmax package - ieeeEmin package + 2) *
    exponentFactor package standard

/-- `Valid` of the object at an address.  `Float'Denorm` is true. -/
def valid (order : ByteOrder) (contents : Contents 16) (x : Address) : Bool :=
  let r := readWord order contents
    (x + BitVec.ofNat 16 (2 * mostSignificantWord package standard)) 2
  let e : ℤ :=
    ((r &&& exponentMask package standard) / exponentFactor package standard).toNat -
      ieeeBias package
  e ≠ ieeeEmax package + 1

end Model

/-- What the object at an address stands for. -/
def datum (package : Package) (order : ByteOrder) (contents : Contents 16)
    (x : Address) : Datum :=
  match package with
  | .fatFlt => float (readWord order contents x 4)
  | .fatLFlt => double (readWord order contents x 8)

section Exponents

theorem exists_number_iff (fractionBits exponentBits : ℕ)
    (bits : BitVec (fractionBits + exponentBits + 1)) :
    (∃ value, decode fractionBits exponentBits bits = number value) ↔
      (bits.extractLsb' fractionBits exponentBits).toNat ≠ 2 ^ exponentBits - 1 := by
  unfold decode
  dsimp only
  split
  · rename_i full
    refine ⟨?_, fun notFull => absurd full notFull⟩
    rintro ⟨value, eq⟩
    split at eq
    · split at eq
      · cases eq
      · cases eq
    · cases eq
  · rename_i notFull
    exact ⟨fun _ => notFull, fun _ => ⟨_, rfl⟩⟩

/-- The last bytes of a little-endian word are its high bits. -/
theorem readWord_little_high (contents : Contents 16) (x : Address) (rest : ℕ) :
    readWord .little contents (x + BitVec.ofNat 16 rest) 2 =
      (readWord .little contents x (rest + 2)).extractLsb' (8 * rest) (8 * 2) := by
  apply BitVec.eq_of_getLsbD_eq
  intro i hi
  have part := bit_readWord .little contents (x + BitVec.ofNat 16 rest) hi
  have whole := bit_readWord .little contents x
    (show 8 * rest + i < 8 * (rest + 2) by omega)
  have address : (8 * rest + i) / 8 = rest + i / 8 := by
    omega
  have offset : (8 * rest + i) % 8 = i % 8 := by
    omega
  rw [address, offset, BitVec.ofNat_add, ← add_assoc, ← part] at whole
  rw [BitVec.getLsbD_extractLsb', decide_eq_true hi, Bool.true_and]
  exact whole.symm

/-- The first bytes of a big-endian word are its high bits. -/
theorem readWord_big_high (contents : Contents 16) (x : Address) (rest : ℕ) :
    readWord .big contents x 2 =
      (readWord .big contents x (rest + 2)).extractLsb' (8 * rest) (8 * 2) := by
  apply BitVec.eq_of_getMsbD_eq
  intro i hi
  have part := bit_readWord .big contents x hi
  have whole := bit_readWord .big contents x
    (show i < 8 * (rest + 2) by omega)
  have position : 8 * (rest + 2) - (8 * rest + 8 * 2 - i) = i := by
    omega
  rw [← part] at whole
  rw [BitVec.getMsbD_extractLsb', decide_eq_true hi, decide_eq_true (by omega),
    Bool.true_and, Bool.true_and, position]
  exact whole.symm

/-- A mask and a division take a field out of a word. -/
theorem toNat_field (word : FloatWord) {mask factor : FloatWord} {start size : ℕ}
    (maskIs : mask.toNat = (2 ^ size - 1) <<< start)
    (factorIs : factor.toNat = 2 ^ start) :
    ((word &&& mask) / factor).toNat = (word.extractLsb' start size).toNat := by
  rw [BitVec.toNat_udiv, BitVec.toNat_and, maskIs, factorIs, ← Nat.shiftRight_eq_div_pow,
    Nat.shiftRight_and_distrib, Nat.shiftLeft_shiftRight,
    Nat.and_two_pow_sub_one_eq_mod, BitVec.extractLsb'_toNat]

/-- The word that `Valid` loads is the high word of the object. -/
theorem readWord_mostSignificant (package : Package) (order : ByteOrder)
    (contents : Contents 16) (x : Address) {rest : ℕ}
    (last : repLast package = (rest + 2) / 2 - 1) (whole : rest % 2 = 0) :
    readWord order contents
        (x + BitVec.ofNat 16 (2 * mostSignificantWord package (bitOrder order))) 2 =
      (readWord order contents x (rest + 2)).extractLsb' (8 * rest) (8 * 2) := by
  cases order with
  | little =>
      have offset : 2 * mostSignificantWord package .lowOrderFirst = rest := by
        rw [mostSignificantWord, last, position]
        omega
      rw [bitOrder, offset]
      exact readWord_little_high contents x rest
  | big =>
      have offset : 2 * mostSignificantWord package .highOrderFirst = 0 := by
        rw [mostSignificantWord, position, mul_zero, mul_zero]
      rw [bitOrder, offset, BitVec.add_zero]
      exact readWord_big_high contents x rest

theorem extractLsb'_extractLsb' {width : ℕ} (bits : BitVec width)
    {start outer inner size : ℕ} (inside : inner + size ≤ outer) :
    (bits.extractLsb' start outer).extractLsb' inner size =
      bits.extractLsb' (start + inner) size := by
  apply BitVec.eq_of_getLsbD_eq
  intro i hi
  rw [BitVec.getLsbD_extractLsb', BitVec.getLsbD_extractLsb',
    BitVec.getLsbD_extractLsb', decide_eq_true hi,
    decide_eq_true (show inner + i < outer by omega), add_assoc]
  simp only [Bool.true_and]

end Exponents

section Validity

/-- `Valid` compares the exponent field with the greatest exponent. -/
theorem valid_iff_field (package : Package) (order : ByteOrder)
    (contents : Contents 16) (x : Address) (rest start size : ℕ)
    (last : repLast package = (rest + 2) / 2 - 1) (whole : rest % 2 = 0)
    (mask : (exponentMask package (bitOrder order)).toNat = (2 ^ size - 1) <<< start)
    (factor : (exponentFactor package (bitOrder order)).toNat = 2 ^ start)
    (inside : start + size ≤ 8 * 2)
    (greatest : ieeeEmax package + 1 + ieeeBias package = (2 ^ size - 1 : ℕ)) :
    valid package (bitOrder order) order contents x = true ↔
      ((readWord order contents x (rest + 2)).extractLsb' (8 * rest + start)
        size).toNat ≠ 2 ^ size - 1 := by
  rw [valid, decide_eq_true_iff, readWord_mostSignificant package order contents x
    last whole, toNat_field _ mask factor, extractLsb'_extractLsb' _ inside]
  omega

theorem valid_iff (package : Package) (order : ByteOrder) (contents : Contents 16)
    (x : Address) :
    valid package (bitOrder order) order contents x = true ↔
      ∃ value, datum package order contents x = number value := by
  cases package with
  | fatFlt =>
      rw [datum, float, exists_number_iff]
      apply valid_iff_field .fatFlt order contents x 2 7 8 <;> cases order <;> decide
  | fatLFlt =>
      rw [datum, double, exists_number_iff]
      apply valid_iff_field .fatLFlt order contents x 6 4 11 <;> cases order <;> decide

/-- An object whose high word is zero, with all ones in the word that the other
bit order selects. -/
def misread (package : Package) (standard : BitOrder) : Contents 16 :=
  fun address =>
    if address.toNat / 2 = mostSignificantWord package standard then 255 else 0

/-- `Valid` says of every object in both packages whether it is a number, if the
bit order of the compiler agrees with the byte order of the target, and only
then. -/
theorem valids (package : Package) (standard : BitOrder) (order : ByteOrder) :
    (∀ contents x, valid package standard order contents x = true ↔
      ∃ value, datum package order contents x = number value) ↔
      standard = bitOrder order := by
  constructor
  · intro agrees
    by_contra different
    have misreads := agrees (misread package standard) 0
    have isNumber : ∃ value,
        datum package order (misread package standard) 0 = number value := by
      rw [← valid_iff]
      revert different
      cases package <;> cases standard <;> cases order <;> decide
    have notValid :
        ¬ valid package standard order (misread package standard) 0 = true := by
      revert different
      cases package <;> cases standard <;> cases order <;> decide
    exact notValid (misreads.mpr isNumber)
  · rintro rfl contents x
    exact valid_iff package order contents x

end Validity

end FloatValidity

end AdacHybridMsp430
