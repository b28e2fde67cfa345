import AdacHybridMsp430.IntegerImages

/-!
# Printing integers

`System.IO.Put` passes an `Integer` of 32 bits to a function of the C run-time
that takes an `int` of 16 bits.  It prints the numeral of the integers that fit
there, and of no others.
-/

namespace AdacHybridMsp430

namespace IntegerOutput

open IntegerImages Target TextBuffers

/-- `System.IO.File_Type`. -/
inductive FileType
  | stdout
  | stderr

/-- `int` of the C compiler. -/
abbrev CInt := BitVec 16

/-- `printf ("%d", x)`, behind what is printed already. -/
def printfD (x : CInt) (output : List Char) : List Char :=
  output ++ decimalNumeral x.toInt

def putInt (x : CInt) (output : List Char) : List Char :=
  printfD x output

def putIntStderr (x : CInt) (output : List Char) : List Char :=
  printfD x output

/-- The parameter that the C function takes: the low word of the argument. -/
def parameter (x : Integer) : CInt :=
  x.setWidth 16

def put (currentOut : FileType) (x : Integer) (output : List Char) :
    List Char :=
  match currentOut with
  | .stdout => putInt (parameter x) output
  | .stderr => putIntStderr (parameter x) output

/-- `S (1 .. P)` after `Image_Integer`, for a string that holds `s`. -/
def imageText (x : Integer) (s : ℤ → Char) : List Char :=
  let image := imageInteger x.toInt s
  Buffer.slice image.text 1 image.last.toNat

def withoutBlank : List Char → List Char
  | ' ' :: characters => characters
  | characters => characters

/-- The characters that `Put` emits are the decimal numeral and the image
without its leading blank. -/
structure PutsNumeral (currentOut : FileType) (x : Integer) (s : ℤ → Char)
    (output : List Char) : Prop where
  numeral : put currentOut x output = output ++ decimalNumeral x.toInt
  image : put currentOut x output = output ++ withoutBlank (imageText x s)

/-- The image is the numeral, behind a blank if it has no sign. -/
theorem imageText_eq (x : Integer) (s : ℤ → Char) :
    imageText x s =
      (if 0 ≤ x.toInt then [' '] else []) ++ decimalNumeral x.toInt := by
  rw [imageText, imageInteger_eq]
  generalize (if 0 ≤ x.toInt then [' '] else []) ++ decimalNumeral x.toInt =
    characters
  have written := Buffer.slice_putAll { text := s, last := 0 } characters
  rw [Buffer.last_putAll]
  simpa using written

theorem withoutBlank_imageText (x : Integer) (s : ℤ → Char) :
    withoutBlank (imageText x s) = decimalNumeral x.toInt := by
  rw [imageText_eq]
  by_cases nonneg : 0 ≤ x.toInt
  · rw [if_pos nonneg]
    rfl
  · rw [if_neg nonneg, List.nil_append, decimalNumeral, if_pos (by omega)]
    rfl

theorem put_eq (currentOut : FileType) (x : Integer) (output : List Char) :
    put currentOut x output =
      output ++ decimalNumeral (x.toInt.bmod (2 ^ 16)) := by
  have word : (parameter x).toInt = x.toInt.bmod (2 ^ 16) := by
    rw [parameter, BitVec.toInt_setWidth, BitVec.toInt_eq_toNat_bmod,
      Int.bmod_bmod_of_dvd (by decide)]
  cases currentOut <;> rw [← word] <;> rfl

/-- `Put` prints the integers of 16 bits, on either file. -/
theorem putsNumeral_iff (currentOut : FileType) (x : Integer) (s : ℤ → Char)
    (output : List Char) :
    PutsNumeral currentOut x s output ↔
      -2 ^ 15 ≤ x.toInt ∧ x.toInt < 2 ^ 15 := by
  have fits : x.toInt.bmod (2 ^ 16) = x.toInt ↔
      -2 ^ 15 ≤ x.toInt ∧ x.toInt < 2 ^ 15 := by
    have lower := Int.le_bmod (x := x.toInt) (show 0 < 2 ^ 16 by decide)
    have upper := Int.bmod_lt (x := x.toInt) (show 0 < 2 ^ 16 by decide)
    constructor
    · intro same
      omega
    · rintro ⟨low, high⟩
      exact Int.bmod_eq_of_le (by omega) (by omega)
  rw [← fits]
  constructor
  · intro puts
    have numeral := puts.numeral
    rw [put_eq] at numeral
    exact decimalNumeral_injective (List.append_cancel_left numeral)
  · intro same
    have numeral : put currentOut x output =
        output ++ decimalNumeral x.toInt := by
      rw [put_eq, same]
    exact
      { numeral := numeral
        image := by rw [withoutBlank_imageText, numeral] }

/-- `32768` is printed as `-32768`. -/
theorem not_putsNumeral_32768 :
    ¬ PutsNumeral .stdout 32768 (fun _ => ' ') [] := by
  intro puts
  have numeral := puts.numeral
  rw [put_eq] at numeral
  exact absurd (decimalNumeral_injective (List.append_cancel_left numeral))
    (by decide)

end IntegerOutput

end AdacHybridMsp430
