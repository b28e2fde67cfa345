import AdacHybridMsp430.IntegerOutput

/-!
# Images of the predefined integer types

The images of `System.Img_Int`, `System.Img_LLI`, `System.Img_Uns` and
`System.Img_LLU` denote their integers, and end inside of the strings that are
declared for them.
-/

namespace AdacHybridMsp430

namespace NumericImages

open IntegerImages IntegerOutput Target TextBuffers

/-- `System.Img_LLI` has the text of `System.Img_Int` for another type. -/
def imageLongLongInteger (v : LongLongInteger) (s : ℤ → Char) : Buffer :=
  imageInteger v.toInt s

/-- The common text of `Set_Image_Unsigned` and `Set_Image_Long_Long_Unsigned`. -/
def setUnsigned (v : ℕ) (buffer : Buffer) : Buffer :=
  if 10 ≤ v then
    (setUnsigned (v / 10) buffer).put (Char.ofNat (48 + v % 10))
  else
    buffer.put (Char.ofNat (48 + v))

def setImageUnsigned (v : Unsigned) (buffer : Buffer) : Buffer :=
  setUnsigned v.toNat buffer

def setImageLongLongUnsigned (v : LongLongUnsigned) (buffer : Buffer) : Buffer :=
  setUnsigned v.toNat buffer

def imageUnsigned (v : Unsigned) (s : ℤ → Char) : Buffer :=
  setImageUnsigned v { text := Function.update s 1 ' ', last := 1 }

def imageLongLongUnsigned (v : LongLongUnsigned) (s : ℤ → Char) : Buffer :=
  setImageLongLongUnsigned v { text := Function.update s 1 ' ', last := 1 }

/-- The integer that an image denotes. -/
def imageValue (image : List Char) : ℤ :=
  match withoutBlank image with
  | '-' :: digits => -(Nat.ofDigitChars 10 digits 0 : ℕ)
  | digits => (Nat.ofDigitChars 10 digits 0 : ℕ)

/-- A shortest numeral in base ten: digits, the first of which is zero for zero
only. -/
structure IsNumeral (value : ℕ) (digits : List Char) : Prop where
  areDigits : ∀ character ∈ digits, character.isDigit
  nonempty : digits ≠ []
  value : Nat.ofDigitChars 10 digits 0 = value
  leading : digits.head? = some '0' → digits = ['0']

/-- An image of some integer in a string of some width that held `s`. -/
structure IsImage (width : ℕ) (v : ℤ) (s : ℤ → Char) (image : Buffer) : Prop where
  text : ∃ digits, IsNumeral v.natAbs digits ∧
    Buffer.slice image.text 1 image.last.toNat =
      (if v < 0 then '-' else ' ') :: digits
  value : imageValue (Buffer.slice image.text 1 image.last.toNat) = v
  fits : image.last ≤ width
  kept : ∀ i, i < 1 ∨ image.last < i → image.text i = s i

/-- Only zero has a leading zero. -/
theorem toDigits_of_head_zero {v : ℕ}
    (leading : (Nat.toDigits 10 v).head? = some '0') : Nat.toDigits 10 v = ['0'] := by
  induction v using Nat.strong_induction_on with
  | _ v ih =>
      by_cases small : v < 10
      · rw [Nat.toDigits_of_lt_base small] at leading ⊢
        rw [Option.some_inj.mp leading]
      · rw [Nat.toDigits_of_base_le (by decide) (by omega),
          List.head?_append,
          Option.or_of_isSome (List.isSome_head?.mpr Nat.toDigits_ne_nil)] at leading
        have zero := congrArg (Nat.ofDigitChars 10 · 0) (ih (v / 10) (by omega) leading)
        rw [Nat.ofDigitChars_ten_toDigits] at zero
        change v / 10 = 0 at zero
        omega

theorem isNumeral_toDigits (v : ℕ) : IsNumeral v (Nat.toDigits 10 v) where
  areDigits _ member := Nat.isDigit_of_mem_toDigits (by decide) (by decide) member
  nonempty := Nat.toDigits_ne_nil
  value := Nat.ofDigitChars_ten_toDigits
  leading := toDigits_of_head_zero

/-- The digits of the value are appended. -/
theorem setUnsigned_eq (v : ℕ) (buffer : Buffer) :
    setUnsigned v buffer = buffer.putAll (Nat.toDigits 10 v) := by
  induction v using Nat.strong_induction_on generalizing buffer with
  | _ v ih =>
      rw [setUnsigned]
      by_cases large : 10 ≤ v
      · rw [if_pos large, ih (v / 10) (by omega), ofNat_eq_digitChar (by omega),
          Buffer.put_eq_putAll, Buffer.putAll_putAll,
          Nat.toDigits_of_base_le (by decide) large]
      · rw [if_neg large, ofNat_eq_digitChar (by omega),
          Nat.toDigits_of_lt_base (by omega), Buffer.put_eq_putAll]

/-- An image is a numeral, behind a blank if it has no sign. -/
def imageCharacters (v : ℤ) : List Char :=
  (if 0 ≤ v then [' '] else []) ++ decimalNumeral v

theorem imageCharacters_eq (v : ℤ) :
    imageCharacters v =
      (if v < 0 then '-' else ' ') :: Nat.toDigits 10 v.natAbs := by
  rw [imageCharacters, decimalNumeral]
  by_cases negative : v < 0
  · rw [if_neg (by omega), if_pos negative, if_pos negative]
    rfl
  · rw [if_pos (by omega), if_neg negative, if_neg negative]
    rfl

theorem imageUnsigned_eq (v : ℕ) (s : ℤ → Char) :
    setUnsigned v { text := Function.update s 1 ' ', last := 1 } =
      Buffer.putAll { text := s, last := 0 } (imageCharacters v) := by
  have start : ({ text := Function.update s 1 ' ', last := 1 } : Buffer) =
      Buffer.putAll { text := s, last := 0 } [' '] :=
    rfl
  rw [setUnsigned_eq, start, Buffer.putAll_putAll, imageCharacters,
    if_pos (Int.natCast_nonneg v), decimalNumeral, if_neg (by omega),
    Int.natAbs_natCast, List.nil_append]

theorem imageValue_imageCharacters (v : ℤ) :
    imageValue (imageCharacters v) = v := by
  have digits := Nat.ofDigitChars_ten_toDigits (n := v.natAbs)
  by_cases negative : v < 0
  · rw [imageCharacters, if_neg (by omega), decimalNumeral, if_pos negative]
    change -((Nat.ofDigitChars 10 (Nat.toDigits 10 v.natAbs) 0 : ℕ) : ℤ) = v
    rw [digits]
    omega
  · rw [imageCharacters, if_pos (by omega), decimalNumeral, if_neg negative]
    simp only [imageValue, withoutBlank, List.nil_append, List.singleton_append]
    split
    · rename_i other isOther
      have digit := Nat.isDigit_of_mem_toDigits (b := 10) (n := v.natAbs) (c := '-')
        (by decide) (by decide) (by rw [isOther]; exact List.mem_cons_self)
      cases digit
    · rw [digits]
      omega

/-- An image takes one character more than its digits. -/
theorem length_imageCharacters (v : ℤ) :
    (imageCharacters v).length = (Nat.toDigits 10 v.natAbs).length + 1 := by
  rw [imageCharacters_eq, List.length_cons]

theorem isImage_putAll {v : ℤ} (count : ℕ) (s : ℤ → Char) (positive : 0 < count)
    (small : v.natAbs < 10 ^ count) :
    IsImage (count + 1) v s
      (Buffer.putAll { text := s, last := 0 } (imageCharacters v)) := by
  have appended := Buffer.appended_putAll { text := s, last := 0 }
    (imageCharacters v)
  have digits := (Nat.length_toDigits_le_iff (by decide) positive).mpr small
  have length := length_imageCharacters v
  have last := appended.last
  dsimp only at last
  rw [zero_add] at last
  have written := appended.written
  dsimp only at written
  rw [zero_add] at written
  refine ⟨⟨_, isNumeral_toDigits v.natAbs, ?_⟩, ?_, ?_, ?_⟩
  · rw [last, Int.toNat_natCast, written, imageCharacters_eq]
  · rw [last, Int.toNat_natCast, written, imageValue_imageCharacters]
  · rw [last]
    omega
  · intro i outside
    apply appended.kept
    dsimp only
    omega

/-- All images denote their integers and fit into strings of constant width. -/
theorem numericImages (s : ℤ → Char) :
    (∀ v : Integer, IsImage 11 v.toInt s (imageInteger v.toInt s)) ∧
    (∀ v : LongLongInteger, IsImage 20 v.toInt s (imageLongLongInteger v s)) ∧
    (∀ v : Unsigned, IsImage 11 v.toNat s (imageUnsigned v s)) ∧
    ∀ v : LongLongUnsigned, IsImage 21 v.toNat s (imageLongLongUnsigned v s) := by
  refine ⟨?_, ?_, ?_, ?_⟩
  · intro v
    have lower := BitVec.le_toInt v
    have upper := BitVec.toInt_lt (x := v)
    rw [imageInteger_eq]
    exact isImage_putAll 10 s (by decide) (by omega)
  · intro v
    have lower := BitVec.le_toInt v
    have upper := BitVec.toInt_lt (x := v)
    rw [imageLongLongInteger, imageInteger_eq]
    exact isImage_putAll 19 s (by decide) (by omega)
  · intro v
    have bound := v.isLt
    rw [imageUnsigned, setImageUnsigned, imageUnsigned_eq]
    exact isImage_putAll 10 s (by decide) (by omega)
  · intro v
    have bound := v.isLt
    rw [imageLongLongUnsigned, setImageLongLongUnsigned, imageUnsigned_eq]
    exact isImage_putAll 20 s (by decide) (by omega)

end NumericImages

end AdacHybridMsp430
