import AdacHybridMsp430.BasedImages

/-!
# What the images of a minimum width say

The image procedures write a numeral that reads back as the value.  Those for
signed values take one off the width, which wraps around for `Integer'First`.
-/

namespace AdacHybridMsp430

namespace BasedImages

open BasedNumerals SignedWords Target TextBuffers

section Reading

/-- The value of a digit. -/
def hexValue (character : Char) : ℕ := hexDigits.idxOf character

def readDigits (base : ℕ) (digits : List Char) : ℕ :=
  numeralValue base (digits.map hexValue)

/-- The digits of a numeral of a value, without superfluous zeros. -/
structure IsNumeral (base value : ℕ) (digits : List Char) : Prop where
  inBase : ∀ character ∈ digits, ∃ digit < base, character = hex digit
  nonempty : digits ≠ []
  value : readDigits base digits = value
  leading : digits.head? = some '0' → digits = ['0']

theorem hexValue_hex {digit : ℕ} (lt : digit < 16) : hexValue (hex digit) = digit := by
  revert digit
  decide

theorem hex_ne_blank {digit : ℕ} (lt : digit < 16) : hex digit ≠ ' ' := by
  revert digit
  decide

theorem isNumeral_digitCharacters (b : Base) (value : ℕ) :
    IsNumeral b.val value (digitCharacters b.val value) where
  inBase character member := by
    obtain ⟨digit, listed, rfl⟩ := List.mem_map.mp member
    exact ⟨digit, lt_of_mem_numeral b.property.1 listed, rfl⟩
  nonempty := List.map_eq_nil_iff.not.mpr (numeral_ne_nil value)
  value := by
    have same : (numeral b.val value).map (hexValue ∘ hex) = numeral b.val value := by
      rw [List.map_congr_left (g := id), List.map_id]
      intro digit member
      have lt := lt_of_mem_numeral b.property.1 member
      exact hexValue_hex (lt.trans_le b.property.2)
    rw [readDigits, digitCharacters, List.map_map, same, numeralValue_numeral]
  leading zero := by
    obtain ⟨digit, head, isZero⟩ : ∃ digit,
        (numeral b.val value).head? = some digit ∧ hex digit = '0' := by
      simpa [digitCharacters] using zero
    have member := List.mem_of_head? head
    have lt := lt_of_mem_numeral b.property.1 member
    have value := hexValue_hex (lt.trans_le b.property.2)
    rw [isZero] at value
    rw [← value] at head
    rw [digitCharacters, numeral_of_head_zero head]
    rfl

theorem unblanked_digitCharacters (b : Base) (value : ℕ) :
    Unblanked (digitCharacters b.val value) := by
  obtain ⟨first, rest, numeral⟩ :=
    List.exists_cons_of_ne_nil (isNumeral_digitCharacters b value).nonempty
  obtain ⟨digit, lt, same⟩ := (isNumeral_digitCharacters b value).inBase first
    (by simp [numeral])
  exact ⟨first, rest, numeral, same ▸ hex_ne_blank (lt.trans_le b.property.2)⟩

theorem Unblanked.append {image : List Char} (unblanked : Unblanked image)
    (more : List Char) : Unblanked (image ++ more) := by
  obtain ⟨first, rest, rfl, nonblank⟩ := unblanked
  exact ⟨first, rest ++ more, rfl, nonblank⟩

theorem length_digitCharacters_le (b : Base) {value : ℕ} (lt : value < 2 ^ 64) :
    (digitCharacters b.val value).length ≤ 64 := by
  rw [digitCharacters, List.length_map]
  apply length_numeral_le b.property.1 _ (by decide)
  exact lt.trans_le (Nat.pow_le_pow_left b.property.1 64)

end Reading

section Blocks

/-- The image of a value with these digits, as a layout puts them. -/
def imageOf (layout : List Char → List Char) (v : ℤ) (digits : List Char) :
    List Char :=
  (if v < 0 then ['-'] else []) ++ layout digits

/-- A block of the greater of the width and the length of the image is appended:
blanks, a minus sign for a negative value, and a numeral of the magnitude. -/
structure WritesImage (layout : List Char → List Char) (base : ℕ) (v : ℤ)
    (w : Integer) (before after : Buffer) (blanks : ℕ) (digits : List Char) :
    Prop where
  numeral : IsNumeral base v.natAbs digits
  length : (blanks + (imageOf layout v digits).length : ℤ) =
    max w.toInt (imageOf layout v digits).length
  appended : Buffer.Appended before after
    (List.replicate blanks ' ' ++ imageOf layout v digits)

/-- A procedure for unsigned values writes the image. -/
def WritesUnsigned (layout : List Char → List Char) (base v : ℕ) (w : Integer)
    (before after : Buffer) : Prop :=
  ∃ blanks digits, WritesImage layout base v w before after blanks digits

/-- A procedure for signed values writes the image, and its scan needs no more
passes than the block has characters behind its first one. -/
def WritesSigned (layout : List Char → List Char) (base : ℕ) (v : ℤ) (w : Integer)
    (before : Buffer) (run : ℕ → Option Buffer) : Prop :=
  ∃ after blanks digits, WritesImage layout base v w before after blanks digits ∧
    run (after.last - before.last - 1).toNat = some after

theorem imageOf_of_nonneg (layout : List Char → List Char) {v : ℤ}
    (nonneg : 0 ≤ v) (digits : List Char) : imageOf layout v digits = layout digits := by
  rw [imageOf, if_neg (not_lt.mpr nonneg), List.nil_append]

theorem imageOf_of_neg (layout : List Char → List Char) {v : ℤ} (negative : v < 0)
    (digits : List Char) : imageOf layout v digits = '-' :: layout digits := by
  rw [imageOf, if_pos negative]
  rfl

theorem writesImage_putAll (layout : List Char → List Char) (b : Base) (v : ℤ)
    (w : Integer) (s : Buffer) :
    ∃ blanks, WritesImage layout b.val v w s
      (s.putAll (padded w.toInt
        (imageOf layout v (digitCharacters b.val v.natAbs))))
      blanks (digitCharacters b.val v.natAbs) :=
  ⟨_, isNumeral_digitCharacters b v.natAbs, by omega, Buffer.appended_putAll s _⟩

variable {setUnsigned : ℕ → Integer → Buffer → Buffer}
  {layout : List Char → List Char} {b : Base}

theorem writesUnsigned
    (writes : ∀ v w s, setUnsigned v w s =
      s.putAll (padded w.toInt (layout (digitCharacters b.val v))))
    (v : ℕ) (w : Integer) (s : Buffer) :
    WritesUnsigned layout b.val v w s (setUnsigned v w s) := by
  obtain ⟨blanks, written⟩ := writesImage_putAll layout b v w s
  rw [imageOf_of_nonneg layout (Int.natCast_nonneg v), Int.natAbs_natCast,
    ← writes] at written
  exact ⟨blanks, _, written⟩

theorem writesSigned_of_nonneg
    (writes : ∀ v w s, setUnsigned v w s =
      s.putAll (padded w.toInt (layout (digitCharacters b.val v))))
    {width : ℕ} {v : BitVec width} (nonneg : 0 ≤ v.toInt) (w : Integer)
    (s : Buffer) :
    WritesSigned layout b.val v.toInt w s
      fun fuel => setSigned setUnsigned fuel v w s := by
  have magnitude := toNat_of_nonneg nonneg
  obtain ⟨blanks, written⟩ := writesImage_putAll layout b v.toInt w s
  refine ⟨_, blanks, _, written, ?_⟩
  dsimp only
  rw [setSigned_of_nonneg writes nonneg, imageOf_of_nonneg layout nonneg, magnitude]

/-- The width without the place of the minus sign. -/
theorem toInt_pred {w : Integer} (proper : w ≠ integerFirst) :
    (w - 1).toInt + 1 = w.toInt := by
  have least := (toInt_eq_min_iff (by decide) w).not.mp proper
  have range := inRange_toInt w
  have one : (1 : Integer).toInt = 1 := rfl
  rw [BitVec.toInt_sub, one, Int.bmod_eq_of_le_mul_two] <;>
    obtain ⟨lower, upper⟩ := range <;> omega

/-- For other widths than the least integer the minus sign takes one place. -/
theorem writesSigned_of_neg
    (writes : ∀ v w s, setUnsigned v w s =
      s.putAll (padded w.toInt (layout (digitCharacters b.val v))))
    (unblanked : ∀ v, Unblanked (layout (digitCharacters b.val v)))
    {width : ℕ} {v : BitVec width} (negative : v.toInt < 0) {w : Integer}
    (proper : w ≠ integerFirst) (s : Buffer) :
    WritesSigned layout b.val v.toInt w s
      fun fuel => setSigned setUnsigned fuel v w s := by
  have magnitude := toNat_neg_of_neg negative
  obtain ⟨blanks, written⟩ := writesImage_putAll layout b v.toInt w s
  refine ⟨_, blanks, _, written, ?_⟩
  have pred := toInt_pred proper
  obtain ⟨first, rest, image, _⟩ := unblanked v.toInt.natAbs
  dsimp only
  rw [setSigned_of_neg writes (magnitude ▸ unblanked _) negative, pred, magnitude,
    imageOf_of_neg layout negative]
  rw [Buffer.last_putAll, length_padded, imageOf_of_neg layout negative, magnitude,
    image]
  simp only [List.length_cons]
  omega

/-- A scan that ends does so with more fuel. -/
theorem skipBlanks_mono {text : ℤ → Char} {fuel : ℕ} {start last : ℤ} (more : ℕ)
    (ends : skipBlanks text fuel start = some last) :
    skipBlanks text (fuel + more) start = some last := by
  induction fuel generalizing start with
  | zero => exact nomatch ends
  | succ fuel ih =>
      rw [Nat.succ_add, skipBlanks]
      rw [skipBlanks] at ends
      split at ends
      · rename_i blank
        rw [if_pos blank, ih ends]
      · rename_i nonblank
        rw [if_neg nonblank, ends]

theorem setSigned_mono {width : ℕ} {fuel : ℕ} {v : BitVec width} {w : Integer}
    {s after : Buffer} (more : ℕ)
    (ends : setSigned setUnsigned fuel v w s = some after) :
    setSigned setUnsigned (fuel + more) v w s = some after := by
  unfold setSigned at ends ⊢
  split at ends
  · rename_i nonneg
    rwa [if_pos nonneg]
  · rename_i negative
    rw [if_neg negative]
    obtain ⟨start, scanned, returned⟩ := Option.bind_eq_some_iff.mp ends
    exact Option.bind_eq_some_iff.mpr ⟨start, skipBlanks_mono more scanned, returned⟩

/-- Taking one off the least integer asks for a block of all the integers. -/
theorem not_writesSigned_integerFirst
    (writes : ∀ v w s, setUnsigned v w s =
      s.putAll (padded w.toInt (layout (digitCharacters b.val v))))
    (unblanked : ∀ v, Unblanked (layout (digitCharacters b.val v)))
    {width : ℕ} {v : BitVec width} (negative : v.toInt < 0)
    (short : (layout (digitCharacters b.val (-v).toNat)).length ≤ 200)
    (s : Buffer) :
    ¬ WritesSigned layout b.val v.toInt integerFirst s
      fun fuel => setSigned setUnsigned fuel v integerFirst s := by
  rintro ⟨after, blanks, digits, ⟨_, length, appended⟩, run⟩
  set image := '-' :: layout (digitCharacters b.val (-v).toNat) with image_eq
  obtain ⟨w, wraps, large⟩ : ∃ w : ℤ,
      (integerFirst - 1).toInt + 1 = w ∧ image.length < w :=
    ⟨2 ^ 31, by decide, by rw [image_eq, List.length_cons]; omega⟩
  have least : integerFirst.toInt = -2 ^ 31 := by decide
  have unpadded : blanks = 0 := by omega
  have returned := setSigned_mono
    ((integerFirst - 1).toInt -
      (layout (digitCharacters b.val (-v).toNat)).length).toNat.succ run
  rw [setSigned_of_neg writes (unblanked _) negative _ _ (by omega), wraps,
    ← image_eq] at returned
  have padding := Buffer.appended_putAll s (padded w image)
  rw [Option.some_inj.mp returned] at padding
  rw [unpadded, List.replicate_zero, List.nil_append,
    imageOf_of_neg layout negative] at appended
  -- both texts fill the block, but begin differently
  have lengths : ('-' :: layout digits).length = (padded w image).length := by
    have count := appended.last.symm.trans padding.last
    omega
  have texts : '-' :: layout digits = padded w image := by
    rw [← appended.written, lengths, padding.written]
  obtain ⟨more, positive⟩ : ∃ more, (w - image.length).toNat = more + 1 :=
    Nat.exists_eq_succ_of_ne_zero (by omega)
  rw [padded, positive, List.replicate_succ, List.cons_append, List.cons.injEq]
    at texts
  exact absurd texts.1 (by decide)

theorem writesSigned_iff
    (writes : ∀ v w s, setUnsigned v w s =
      s.putAll (padded w.toInt (layout (digitCharacters b.val v))))
    (unblanked : ∀ v, Unblanked (layout (digitCharacters b.val v)))
    {width : ℕ} (v : BitVec width)
    (short : (layout (digitCharacters b.val (-v).toNat)).length ≤ 200)
    (w : Integer) (s : Buffer) :
    WritesSigned layout b.val v.toInt w s
        (fun fuel => setSigned setUnsigned fuel v w s) ↔
      0 ≤ v.toInt ∨ w ≠ integerFirst := by
  constructor
  · intro written
    by_contra neither
    push Not at neither
    obtain ⟨negative, rfl⟩ := neither
    exact not_writesSigned_integerFirst writes unblanked negative short s written
  · intro cases
    rcases le_or_gt 0 v.toInt with nonneg | negative
    · exact writesSigned_of_nonneg writes nonneg w s
    · exact writesSigned_of_neg writes unblanked negative
        (cases.resolve_left (not_le.mpr negative)) s

theorem unblanked_basedLiteral (b : Base) (v : ℕ) :
    Unblanked (basedLiteral b.val (digitCharacters b.val v)) := by
  have base : Unblanked (digitCharacters 10 b.val) :=
    unblanked_digitCharacters ten b.val
  exact ((base.append _).append _).append _

theorem length_basedLiteral_le (b : Base) {v : ℕ} (lt : v < 2 ^ 64) :
    (basedLiteral b.val (digitCharacters b.val v)).length ≤ 200 := by
  have base : (digitCharacters 10 b.val).length ≤ 64 := by
    have small := b.property.2
    exact length_digitCharacters_le ten (by omega)
  have digits := length_digitCharacters_le b lt
  simp only [basedLiteral, List.length_append, List.length_singleton]
  omega

theorem length_numeral_le_of_lt {v : ℕ} (lt : v < 2 ^ 64) :
    (digitCharacters 10 v).length ≤ 200 :=
  (length_digitCharacters_le ten lt).trans (by decide)

theorem toNat_lt {width : ℕ} (le : width ≤ 64) (v : BitVec width) :
    v.toNat < 2 ^ 64 :=
  v.isLt.trans_le (Nat.pow_le_pow_right (by decide) le)

end Blocks

/-- The procedures for unsigned values write the image in every width, those for
signed values unless a negative value has the width `Integer'First`. -/
theorem writes_iff (b : Base) (w : Integer) (s : Buffer) :
    (∀ v : Unsigned, WritesUnsigned (basedLiteral b.val) b.val v.toNat w s
      (setImageBasedUnsigned v b w s)) ∧
    (∀ v : LongLongUnsigned, WritesUnsigned (basedLiteral b.val) b.val v.toNat w s
      (setImageBasedLongLongUnsigned v b w s)) ∧
    (∀ v : Unsigned, WritesUnsigned id 10 v.toNat w s
      (setImageWidthUnsigned v w s)) ∧
    (∀ v : LongLongUnsigned, WritesUnsigned id 10 v.toNat w s
      (setImageWidthLongLongUnsigned v w s)) ∧
    (∀ v : Integer, WritesSigned (basedLiteral b.val) b.val v.toInt w s
        (fun fuel => setImageBasedInteger fuel v b w s) ↔
      0 ≤ v.toInt ∨ w ≠ integerFirst) ∧
    (∀ v : LongLongInteger, WritesSigned (basedLiteral b.val) b.val v.toInt w s
        (fun fuel => setImageBasedLongLongInteger fuel v b w s) ↔
      0 ≤ v.toInt ∨ w ≠ integerFirst) ∧
    (∀ v : Integer, WritesSigned id 10 v.toInt w s
        (fun fuel => setImageWidthInteger fuel v w s) ↔
      0 ≤ v.toInt ∨ w ≠ integerFirst) ∧
    (∀ v : LongLongInteger, WritesSigned id 10 v.toInt w s
        (fun fuel => setImageWidthLongLongInteger fuel v w s) ↔
      0 ≤ v.toInt ∨ w ≠ integerFirst) := by
  have based : ∀ v w s, setBased v b w s = s.putAll
      (padded w.toInt (basedLiteral b.val (digitCharacters b.val v))) :=
    fun v w s => setBased_eq v b w s
  have decimal : ∀ v w s, setWidth v w s =
      s.putAll (padded w.toInt (id (digitCharacters ten.val v))) := setWidth_eq
  have literals := unblanked_basedLiteral b
  have numerals : ∀ v, Unblanked (id (digitCharacters ten.val v)) :=
    unblanked_digitCharacters ten
  refine ⟨fun v => ?_, fun v => ?_, fun v => ?_, fun v => ?_, fun v => ?_,
    fun v => ?_, fun v => ?_, fun v => ?_⟩
  · exact writesUnsigned based v.toNat w s
  · exact writesUnsigned based v.toNat w s
  · exact writesUnsigned decimal v.toNat w s
  · exact writesUnsigned decimal v.toNat w s
  · have short := length_basedLiteral_le b (toNat_lt (by decide) (-v))
    exact writesSigned_iff based literals v short w s
  · have short := length_basedLiteral_le b (toNat_lt (by decide) (-v))
    exact writesSigned_iff based literals v short w s
  · have short := length_numeral_le_of_lt (toNat_lt (by decide) (-v))
    exact writesSigned_iff decimal numerals v short w s
  · have short := length_numeral_le_of_lt (toNat_lt (by decide) (-v))
    exact writesSigned_iff decimal numerals v short w s

/-- The image of -1 in the width `Integer'First`. -/
theorem not_writes_integerFirst :
    ¬ WritesSigned id 10 (-1) integerFirst ⟨fun _ => ' ', 0⟩
      fun fuel => setImageWidthInteger fuel (-1) integerFirst ⟨fun _ => ' ', 0⟩ := by
  have decimal : ∀ v w s, setWidth v w s =
      s.putAll (padded w.toInt (id (digitCharacters ten.val v))) := setWidth_eq
  have negative : (-1 : Integer).toInt < 0 := by decide
  have short := length_numeral_le_of_lt (toNat_lt (by decide) (-(-1 : Integer)))
  exact not_writesSigned_integerFirst decimal (unblanked_digitCharacters ten)
    negative short _

end BasedImages

end AdacHybridMsp430
