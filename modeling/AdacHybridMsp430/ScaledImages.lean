import AdacHybridMsp430.DecimalOutput
import AdacHybridMsp430.NumericImages

/-!
# Images of decimal types

`System.Img_Dec` and `System.Img_LLD` write the integer of a decimal value with
as many digits after the point as its scale asks for, so that nothing is
rounded: the image reads back as the value.
-/

namespace AdacHybridMsp430

namespace DecimalImages

open IntegerImages NumericImages Target TextBuffers DecimalNumerals

/-- The common text of `Set_Image_Decimal` and `Set_Image_Long_Long_Decimal`;
`digs` is the integer's image. -/
def setImage (digs : Buffer) (s : Buffer) (scale : ℤ) (fore aft exp : ℕ) : Buffer :=
  (setDecimalDigits digs.text digs.last s scale fore aft exp).2

/-- `Set_Image_Decimal`; what the variable for the image held is `digs`. -/
def setImageDecimal (v : Integer) (digs : ℤ → Char) (s : Buffer) (scale : ℤ)
    (fore aft exp : ℕ) : Buffer :=
  setImage (imageInteger v.toInt digs) s scale fore aft exp

def setImageLongLongDecimal (v : LongLongInteger) (digs : ℤ → Char) (s : Buffer)
    (scale : ℤ) (fore aft exp : ℕ) : Buffer :=
  setImage (imageLongLongInteger v digs) s scale fore aft exp

/-- The start of an image, with a blank for numbers that are not negative. -/
def imageStart (v : ℤ) (s : ℤ → Char) : Buffer :=
  if 0 ≤ v then { text := Function.update s 1 ' ', last := 1 }
  else { text := s, last := 0 }

def imageDecimal (v : Integer) (digs s : ℤ → Char) (scale : ℤ) : Buffer :=
  setImageDecimal v digs (imageStart v.toInt s) scale 1 (max 1 scale).toNat 0

def imageLongLongDecimal (v : LongLongInteger) (digs s : ℤ → Char) (scale : ℤ) :
    Buffer :=
  setImageLongLongDecimal v digs (imageStart v.toInt s) scale 1
    (max 1 scale).toNat 0

/-- The number that a text denotes, after leading blanks. -/
def decimalValue (text : List Char) : ℚ :=
  let text := text.dropWhile (· = ' ')
  let negative := text.head? = some '-'
  let text := text.dropWhile (· = '-')
  let whole := text.takeWhile (· ≠ '.')
  let fraction := (text.dropWhile (· ≠ '.')).drop 1
  signFactor negative *
    (digitsValue (whole ++ fraction) * 10 ^ (-(fraction.length : ℤ)))

/-- An image of a decimal value in a string that held `s`. -/
structure IsDecimalImage (v scale : ℤ) (s : ℤ → Char) (image : Buffer) : Prop where
  value : decimalValue (Buffer.slice image.text 1 image.last.toNat) =
    exactValue v scale
  text : ∃ numeral : Fixed, numeral.negative = decide (v < 0) ∧
    numeral.fraction.length = max 1 scale ∧
    Buffer.slice image.text 1 image.last.toNat =
      (if v < 0 then '-' else ' ') :: (numeral.whole ++ '.' :: numeral.fraction)
  kept : ∀ i, i < 1 ∨ image.last < i → image.text i = s i

section Reading

theorem isDigit_ne {digits : List Char} (areDigits : AreDigits digits)
    {character : Char} (other : character.isDigit = false) :
    character ∉ digits := by
  intro member
  rw [areDigits character member] at other
  cases other

/-- A numeral reads back as its value, behind any number of blanks. -/
theorem decimalValue_text (blanks : ℕ) (numeral : Fixed) :
    decimalValue (List.replicate blanks ' ' ++ numeral.text) = numeral.value := by
  obtain ⟨first, rest, isWhole⟩ := List.exists_cons_of_ne_nil numeral.nonempty
  have wholeDigits := (areDigits_append.mp numeral.areDigits).1
  have isFirst : first ∈ numeral.whole := by
    rw [isWhole]
    exact List.mem_cons_self
  have notBlank : first ≠ ' ' :=
    ne_of_mem_of_not_mem isFirst (isDigit_ne wholeDigits rfl)
  have notMinus : first ≠ '-' :=
    ne_of_mem_of_not_mem isFirst (isDigit_ne wholeDigits rfl)
  have unsigned : numeral.whole ++ '.' :: numeral.fraction =
      first :: (rest ++ '.' :: numeral.fraction) := by
    rw [isWhole, List.cons_append]
  have blanksDropped : (List.replicate blanks ' ' ++ numeral.text).dropWhile
      (· = ' ') = numeral.text := by
    rw [List.dropWhile_append_of_pos (by simp), Fixed.text, Fixed.sign,
      List.append_assoc, unsigned]
    split
    · exact List.dropWhile_cons_of_neg (by decide)
    · exact List.dropWhile_cons_of_neg (by simpa using notBlank)
  have signRead : decide (numeral.text.head? = some '-') = numeral.negative := by
    rw [Fixed.text, Fixed.sign, List.append_assoc, unsigned]
    cases numeral.negative with
    | true => rfl
    | false => simpa using notMinus
  have signDropped : numeral.text.dropWhile (· = '-') =
      numeral.whole ++ '.' :: numeral.fraction := by
    rw [Fixed.text, Fixed.sign, List.append_assoc, unsigned]
    split
    · rw [List.singleton_append, List.dropWhile_cons_of_pos (by decide)]
      exact List.dropWhile_cons_of_neg (by simpa using notMinus)
    · exact List.dropWhile_cons_of_neg (by simpa using notMinus)
  have noPoint : ∀ character ∈ numeral.whole, decide (character ≠ '.') = true := by
    intro character member
    exact decide_eq_true
      (ne_of_mem_of_not_mem member (isDigit_ne wholeDigits rfl))
  have wholeRead : (numeral.whole ++ '.' :: numeral.fraction).takeWhile (· ≠ '.') =
      numeral.whole := by
    rw [List.takeWhile_append_of_pos noPoint, List.takeWhile_cons_of_neg (by decide),
      List.append_nil]
  have fractionRead : ((numeral.whole ++ '.' :: numeral.fraction).dropWhile
      (· ≠ '.')).drop 1 = numeral.fraction := by
    rw [List.dropWhile_append_of_pos noPoint, List.dropWhile_cons_of_neg (by decide)]
    rfl
  rw [decimalValue, blanksDropped, signRead, signDropped, wholeRead, fractionRead, Fixed.value]

/-- The blank in front of a number that is not negative is no part of it. -/
theorem decimalValue_image {v : ℤ} {numeral : Fixed}
    (sign : numeral.negative = decide (v < 0)) :
    decimalValue
        ((if v < 0 then '-' else ' ') :: (numeral.whole ++ '.' :: numeral.fraction)) =
      numeral.value := by
  by_cases negative : v < 0
  · have read := decimalValue_text 0 numeral
    rw [Fixed.text, Fixed.sign, sign, decide_eq_true negative] at read
    rwa [if_pos negative]
  · have read := decimalValue_text 1 numeral
    rw [Fixed.text, Fixed.sign, sign, decide_eq_false negative] at read
    rwa [if_neg negative]

end Reading

section Exactness

/-- A value with as many places as are kept is not rounded. -/
theorem roundTo_exactValue (v scale : ℤ) {places : ℤ} (le : scale ≤ places) :
    roundTo places (exactValue v scale) = exactValue v scale := by
  have scaled : (v.natAbs : ℚ) * 10 ^ (-scale) * 10 ^ places =
      ((v.natAbs * 10 ^ (places - scale).toNat : ℕ) : ℚ) := by
    rw [mul_assoc, ← zpow_add₀ (by norm_num)]
    push_cast
    rw [← zpow_natCast, Int.toNat_of_nonneg (by omega)]
    congr 2
    omega
  have value : exactValue v scale =
      signFactor (decide (v < 0)) * ((v.natAbs : ℚ) * 10 ^ (-scale)) := by
    rw [exactValue, intCast_eq_signFactor v, mul_assoc]
  rw [value, roundTo_signFactor, roundTo, scaled, roundHalfAway_natCast,
    Int.cast_natCast, ← scaled, mul_assoc, ← zpow_add₀ (by norm_num),
    add_neg_cancel, zpow_zero, mul_one]

theorem isImage_imageInteger (v : ℤ) (digs : ℤ → Char) :
    IsImage (imageInteger v digs).text (imageInteger v digs).last v := by
  have written := Buffer.slice_putAll { text := digs, last := 0 } (imageCharacters v)
  have last := Buffer.last_putAll { text := digs, last := 0 } (imageCharacters v)
  rw [imageInteger_eq]
  change IsImage (Buffer.putAll _ (imageCharacters v)).text
    (Buffer.putAll _ (imageCharacters v)).last v
  rw [imageCharacters_eq] at written last ⊢
  rw [List.length_cons, Buffer.slice_cons] at written
  obtain ⟨sign, digits⟩ := List.cons.inj written
  refine ⟨sign, ?_, digits⟩
  rw [last, List.length_cons]
  push_cast
  ring

/-- The text that follows the start is the rest of the image. -/
theorem imageStart_putAll (v : ℤ) (s : ℤ → Char) {numeral : Fixed}
    (sign : numeral.negative = decide (v < 0)) :
    (imageStart v s).putAll numeral.text =
      Buffer.putAll { text := s, last := 0 }
        ((if v < 0 then '-' else ' ') :: (numeral.whole ++ '.' :: numeral.fraction)) := by
  by_cases negative : v < 0
  · rw [imageStart, if_neg (by omega), if_pos negative, Fixed.text, Fixed.sign, sign,
      decide_eq_true negative, if_pos rfl, List.append_assoc, List.singleton_append]
  · have blank : imageStart v s = Buffer.putAll { text := s, last := 0 } [' '] := by
      rw [imageStart, if_pos (by omega)]
      rfl
    rw [blank, Buffer.putAll_putAll, if_neg negative, Fixed.text, Fixed.sign, sign,
      decide_eq_false negative, if_neg (by decide), List.nil_append,
      List.singleton_append]

/-- The common case of both attributes. -/
theorem isDecimalImage_setImage (v scale : ℤ) (digs s : ℤ → Char) :
    IsDecimalImage v scale s
      (setImage (imageInteger v digs) (imageStart v s) scale 1
        (max 1 scale).toNat 0) := by
  obtain ⟨text, written, blanks, numeral, rfl, sign, field, places, value⟩ :=
    fixed_spec scale (isImage_imageInteger v digs) (imageStart v s) 1
      (max 1 scale).toNat
  have kept : ((max 1 (max 1 scale).toNat : ℕ) : ℤ) = max 1 scale := by
    omega
  rw [kept, roundTo_exactValue v scale (le_max_right 1 scale)] at value
  have noBlanks : blanks = 0 := by
    have digits := List.length_pos_of_ne_nil numeral.nonempty
    rw [List.length_append] at field
    omega
  rw [noBlanks, List.replicate_zero, List.nil_append, imageStart_putAll v s sign]
    at written
  have appended := Buffer.appended_putAll { text := s, last := 0 }
    ((if v < 0 then '-' else ' ') :: (numeral.whole ++ '.' :: numeral.fraction))
  have last := appended.last
  have text := appended.written
  dsimp only at last text
  rw [zero_add] at last text
  rw [← Int.toNat_natCast (List.length _), ← last] at text
  rw [setImage, written]
  refine ⟨?_, ⟨numeral, sign, by rw [places, kept], text⟩, ?_⟩
  · rw [text, decimalValue_image sign, value]
  · intro i outside
    apply appended.kept
    dsimp only
    omega

end Exactness

/-- The image of every decimal value reads back as the value, whatever the scale
is and whatever the variables held. -/
theorem decimalImages (scale : ℤ) (digs s : ℤ → Char) :
    (∀ v : Integer,
      IsDecimalImage v.toInt scale s (imageDecimal v digs s scale)) ∧
    ∀ v : LongLongInteger,
      IsDecimalImage v.toInt scale s (imageLongLongDecimal v digs s scale) :=
  ⟨fun v => isDecimalImage_setImage v.toInt scale digs s,
    fun v => isDecimalImage_setImage v.toInt scale digs s⟩

end DecimalImages

end AdacHybridMsp430
