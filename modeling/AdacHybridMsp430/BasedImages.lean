import AdacHybridMsp430.BasedNumerals
import AdacHybridMsp430.RuntimeSystem
import AdacHybridMsp430.SignedWords
import AdacHybridMsp430.TextBuffers
import Mathlib.Tactic.IntervalCases

/-!
# Images of a minimum width

`System.Img_BIU` and `System.Img_LLB` write integers as based literals,
`System.Img_WIU` and `System.Img_LLW` as decimal numerals, both behind as many
blanks as a width asks for.  Indices of the string are unbounded, since the
caller promises a string that is large enough.
-/

namespace AdacHybridMsp430

namespace BasedImages

open BasedNumerals SignedWords Target TextBuffers

/-- The bases that the callers may ask for. -/
abbrev Base := {b : ℕ // 2 ≤ b ∧ b ≤ 16}

def ten : Base := ⟨10, by decide⟩

def hexDigits : List Char := "0123456789ABCDEF".toList

/-- `Hex`. -/
def hex (digit : ℕ) : Char := hexDigits.getD digit ' '

/-- `Character'Val (digit + Character'Pos ('0'))`. -/
def decimalDigit (digit : ℕ) : Char := Char.ofNat (digit + 48)

/-- The common text of `Set_Digits` in the four units. -/
def setDigits (digit : ℕ → Char) (base : Base) (t : ℕ) (s : Buffer) : Buffer :=
  if base.val ≤ t then
    (setDigits digit base (t / base.val) s).put (digit (t % base.val))
  else s.put (digit t)
termination_by t
decreasing_by
  have valid := base.property
  exact Nat.div_lt_self (by omega) valid.1

/-- The loop that moves the image to the right, with the value of `T` after it. -/
def moveRight (start f t : ℤ) (text : ℤ → Char) : (ℤ → Char) × ℤ :=
  if start < f then
    moveRight start (f - 1) (t - 1) (Function.update text t (text f))
  else (text, t)
termination_by (f - start).toNat

/-- The loop that sets the blanks in front of the image. -/
def setBlanks (j last : ℤ) (text : ℤ → Char) : ℤ → Char :=
  if j ≤ last then setBlanks (j + 1) last (Function.update text j ' ') else text
termination_by (last + 1 - j).toNat

/-- The common text of the unsigned procedures behind the digits: the image ends
at `s.last`, and shall end at `p`. -/
def shift (start p : ℤ) (s : Buffer) : Buffer :=
  let (text, t) := moveRight start s.last p s.text
  { text := setBlanks (start + 1) t text, last := p }

/-- The common text of the procedures for unsigned values in a base. -/
def setBased (v : ℕ) (b : Base) (w : Integer) (s : Buffer) : Buffer :=
  let start := s.last
  let s := if 10 ≤ b.val then s.put '1' else s
  let s := s.put (Char.ofNat (48 + b.val % 10))
  let s := s.put '#'
  let s := setDigits hex b v s
  let s := s.put '#'
  if s.last - start < w.toInt then shift start (start + w.toInt) s else s

/-- The common text of the procedures for unsigned values. -/
def setWidth (v : ℕ) (w : Integer) (s : Buffer) : Buffer :=
  let start := s.last
  let s := setDigits decimalDigit ten v s
  if s.last - start < w.toInt then
    shift start (s.last + (w.toInt - (s.last - start))) s
  else s

/-- The loop that looks for the last leading blank, for as many passes as there
is fuel. -/
def skipBlanks (text : ℤ → Char) : ℕ → ℤ → Option ℤ
  | 0, _ => none
  | fuel + 1, start =>
      if text (start + 1) = ' ' then skipBlanks text fuel (start + 1)
      else some start

/-- The common text of the procedures for signed values.  In the branch for
negative ones the checks are suppressed, so that `-V` and `W - 1` wrap around. -/
def setSigned {width : ℕ} (setUnsigned : ℕ → Integer → Buffer → Buffer)
    (fuel : ℕ) (v : BitVec width) (w : Integer) (s : Buffer) : Option Buffer :=
  if 0 ≤ v.toInt then some (setUnsigned v.toNat w s)
  else do
    let s := s.put ' '
    let start := s.last
    let s := setUnsigned (-v).toNat (w - 1) s
    let start ← skipBlanks s.text fuel start
    some { s with text := Function.update s.text start '-' }

def setImageBasedUnsigned (v : Unsigned) (b : Base) (w : Integer) (s : Buffer) :
    Buffer :=
  setBased v.toNat b w s

def setImageBasedLongLongUnsigned (v : LongLongUnsigned) (b : Base) (w : Integer)
    (s : Buffer) : Buffer :=
  setBased v.toNat b w s

def setImageBasedInteger (fuel : ℕ) (v : Integer) (b : Base) (w : Integer)
    (s : Buffer) : Option Buffer :=
  setSigned (fun v => setBased v b) fuel v w s

def setImageBasedLongLongInteger (fuel : ℕ) (v : LongLongInteger) (b : Base)
    (w : Integer) (s : Buffer) : Option Buffer :=
  setSigned (fun v => setBased v b) fuel v w s

def setImageWidthUnsigned (v : Unsigned) (w : Integer) (s : Buffer) : Buffer :=
  setWidth v.toNat w s

def setImageWidthLongLongUnsigned (v : LongLongUnsigned) (w : Integer)
    (s : Buffer) : Buffer :=
  setWidth v.toNat w s

def setImageWidthInteger (fuel : ℕ) (v : Integer) (w : Integer) (s : Buffer) :
    Option Buffer :=
  setSigned setWidth fuel v w s

def setImageWidthLongLongInteger (fuel : ℕ) (v : LongLongInteger) (w : Integer)
    (s : Buffer) : Option Buffer :=
  setSigned setWidth fuel v w s

section Digits

/-- The characters of the digits of a number. -/
def digitCharacters (base n : ℕ) : List Char := (numeral base n).map hex

theorem decimalDigit_eq {digit : ℕ} (lt : digit < 10) :
    decimalDigit digit = hex digit := by
  revert digit
  decide

theorem setDigits_eq {digit : ℕ → Char} {base : Base}
    (digits : ∀ d < base.val, digit d = hex d) (t : ℕ) (s : Buffer) :
    setDigits digit base t s = s.putAll (digitCharacters base t) := by
  have valid := base.property
  induction t using Nat.strong_induction_on generalizing s with
  | _ t ih =>
      unfold setDigits
      split
      · rename_i large
        have smaller : t / base.val < t :=
          Nat.div_lt_self (by omega) valid.1
        rw [ih _ smaller, digits _ (Nat.mod_lt t (by omega)), Buffer.put_eq_putAll,
          Buffer.putAll_putAll, digitCharacters, digitCharacters,
          numeral_of_le valid.1 large, List.map_append]
        rfl
      · rename_i small
        have lt : t < base.val := not_le.mp small
        rw [digits t lt, digitCharacters, numeral_of_lt lt]
        rfl

end Digits

section Padding

/-- The loop moves the image by the difference of its two indices. -/
theorem moveRight_spec (start f t : ℤ) (text : ℤ → Char) (le : start ≤ f)
    (lt : f < t) :
    (moveRight start f t text).2 = start + (t - f) ∧
      ∀ i, (moveRight start f t text).1 i =
        if start + (t - f) < i ∧ i ≤ t then text (i - (t - f)) else text i := by
  induction f, t, text using moveRight.induct start with
  | case1 f t text more ih =>
      obtain ⟨last, moved⟩ := ih (by omega) (by omega)
      rw [moveRight, if_pos more]
      refine ⟨last.trans (by omega), fun i => ?_⟩
      rw [moved i]
      have shift : t - 1 - (f - 1) = t - f := by omega
      rw [shift]
      by_cases top : i = t
      · rw [if_neg (by omega), if_pos (by omega), top, Function.update_self]
        congr 1
        omega
      · rw [Function.update_of_ne top]
        by_cases inside : start + (t - f) < i ∧ i ≤ t
        · rw [if_pos inside, if_pos (by omega), Function.update_of_ne (by omega)]
        · rw [if_neg inside, if_neg (by omega)]
  | case2 f t text done =>
      rw [moveRight, if_neg done]
      refine ⟨by dsimp only; omega, fun i => ?_⟩
      rw [if_neg (by omega)]

theorem setBlanks_spec (j last : ℤ) (text : ℤ → Char) (i : ℤ) :
    setBlanks j last text i = if j ≤ i ∧ i ≤ last then ' ' else text i := by
  induction j, text using setBlanks.induct last with
  | case1 j text more ih =>
      rw [setBlanks, if_pos more, ih]
      by_cases first : i = j
      · rw [if_neg (by omega), if_pos (by omega), first, Function.update_self]
      · rw [Function.update_of_ne first]
        exact if_congr (by omega) rfl rfl
  | case2 j text done =>
      rw [setBlanks, if_neg done, if_neg (by omega)]

/-- An image behind the blanks that a width asks for. -/
def padded (w : ℤ) (image : List Char) : List Char :=
  List.replicate (w - image.length).toNat ' ' ++ image

theorem padded_of_le {w : ℤ} {image : List Char} (le : w ≤ image.length) :
    padded w image = image := by
  rw [padded, Int.toNat_of_nonpos (by omega)]
  rfl

theorem length_padded (w : ℤ) (image : List Char) :
    ((padded w image).length : ℤ) = max w image.length := by
  rw [padded, List.length_append, List.length_replicate]
  omega

/-- Moving an image and setting the blanks pads it. -/
theorem shift_putAll (s : Buffer) (image : List Char) {w : ℤ}
    (lt : image.length < w) :
    shift s.last (s.last + w) (s.putAll image) = s.putAll (padded w image) := by
  have length := length_padded w image
  rw [max_eq_left lt.le] at length
  obtain ⟨count, rfl⟩ : ∃ count : ℕ, w = count + image.length :=
    ⟨(w - image.length).toNat, by omega⟩
  have blanks : ((count + image.length : ℤ) - image.length).toNat = count := by
    omega
  obtain ⟨last, moved⟩ := moveRight_spec s.last (s.last + image.length)
    (s.last + (count + image.length)) (s.putAll image).text (by omega) (by omega)
  apply Buffer.ext
  · funext i
    simp only [shift, Buffer.last_putAll, setBlanks_spec, moved, last]
    by_cases outside : i ≤ s.last ∨ s.last + (count + image.length) < i
    · rw [if_neg (by omega), if_neg (by omega),
        Buffer.text_putAll_of_outside _ _ (by omega),
        Buffer.text_putAll_of_outside _ _ (by omega)]
    · obtain ⟨k, rfl⟩ : ∃ k : ℕ, i = s.last + 1 + k :=
        ⟨(i - s.last - 1).toNat, by omega⟩
      rw [Buffer.text_putAll_of_inside s (padded _ image) (k := k) (by omega)]
      by_cases blank : k < count
      · rw [if_pos (by omega)]
        simp [padded, blank]
      · obtain ⟨rest, rfl⟩ : ∃ rest, k = count + rest := ⟨k - count, by omega⟩
        have place : s.last + 1 + ((count + rest : ℕ) : ℤ) -
            (s.last + (count + image.length) - (s.last + image.length)) =
            s.last + 1 + rest := by
          push_cast
          omega
        rw [if_neg (by omega), if_pos (by omega), place,
          Buffer.text_putAll_of_inside s image (by omega)]
        simp [padded]
  · simp only [shift, Buffer.last_putAll, length]

end Padding

section Unsigned

/-- A based literal with these digits. -/
def basedLiteral (base : ℕ) (digits : List Char) : List Char :=
  digitCharacters 10 base ++ ['#'] ++ digits ++ ['#']

theorem digitCharacters_base (b : Base) (s : Buffer) :
    (if 10 ≤ b.val then s.put '1' else s).put (Char.ofNat (48 + b.val % 10)) =
      s.putAll (digitCharacters 10 b.val) := by
  obtain ⟨b, lower, upper⟩ := b
  dsimp only
  by_cases two : 10 ≤ b
  · rw [if_pos two, digitCharacters, numeral_of_le (by decide) two,
      numeral_of_lt (by omega)]
    interval_cases b <;> rfl
  · rw [if_neg two, digitCharacters, numeral_of_lt (by omega)]
    interval_cases b <;> rfl

theorem setBased_eq (v : ℕ) (b : Base) (w : Integer) (s : Buffer) :
    setBased v b w s =
      s.putAll (padded w.toInt (basedLiteral b.val (digitCharacters b.val v))) := by
  have literal : ((((if 10 ≤ b.val then s.put '1' else s).put
      (Char.ofNat (48 + b.val % 10))).put '#').putAll
        (digitCharacters b.val v)).put '#' =
      s.putAll (basedLiteral b.val (digitCharacters b.val v)) := by
    rw [digitCharacters_base]
    simp only [Buffer.put_eq_putAll, Buffer.putAll_putAll, basedLiteral]
  simp only [setBased, setDigits_eq (fun _ _ => rfl), literal]
  split
  · rename_i wider
    rw [Buffer.last_putAll] at wider
    exact shift_putAll s _ (by omega)
  · rename_i fits
    rw [Buffer.last_putAll] at fits
    rw [padded_of_le (by omega)]

theorem setWidth_eq (v : ℕ) (w : Integer) (s : Buffer) :
    setWidth v w s = s.putAll (padded w.toInt (digitCharacters 10 v)) := by
  have digits : ∀ d < ten.val, decimalDigit d = hex d := fun _ => decimalDigit_eq
  simp only [setWidth, setDigits_eq digits]
  split
  · rename_i wider
    rw [Buffer.last_putAll] at wider ⊢
    have last : s.last + (digitCharacters ten.val v).length +
        (w.toInt - (s.last + (digitCharacters ten.val v).length - s.last)) =
        s.last + w.toInt := by
      omega
    rw [last]
    exact shift_putAll s _ (by omega)
  · rename_i fits
    rw [Buffer.last_putAll] at fits
    exact (congrArg s.putAll (padded_of_le (by omega))).symm

end Unsigned

section Signed

/-- The scan passes over the blanks that follow its starting place. -/
theorem skipBlanks_eq (text : ℤ → Char) (start : ℤ) {count fuel : ℕ}
    (enough : count < fuel)
    (blanks : ∀ k : ℕ, k < count → text (start + 1 + k) = ' ')
    (ends : text (start + 1 + count) ≠ ' ') :
    skipBlanks text fuel start = some (start + count) := by
  induction count generalizing start fuel with
  | zero =>
      obtain ⟨fuel, rfl⟩ := Nat.exists_eq_succ_of_ne_zero (by omega : fuel ≠ 0)
      rw [Nat.cast_zero, add_zero] at ends ⊢
      rw [skipBlanks, if_neg ends]
  | succ count ih =>
      obtain ⟨fuel, rfl⟩ := Nat.exists_eq_succ_of_ne_zero (by omega : fuel ≠ 0)
      have first := blanks 0 (by omega)
      rw [Nat.cast_zero, add_zero] at first
      rw [skipBlanks, if_pos first, ih (start + 1) (by omega)]
      · push_cast
        rw [add_assoc, add_comm 1]
      · intro k lt
        rw [← blanks (k + 1) (by omega)]
        push_cast
        congr 1
        omega
      · convert! ends using 2
        push_cast
        omega

/-- An image without leading blank. -/
def Unblanked (image : List Char) : Prop :=
  ∃ first rest, image = first :: rest ∧ first ≠ ' '

variable {setUnsigned : ℕ → Integer → Buffer → Buffer} {layout : ℕ → List Char}

/-- The scan behind a blank and a padded image ends in front of the image. -/
theorem skipBlanks_putAll (s : Buffer) {image : List Char}
    (unblanked : Unblanked image) {count fuel : ℕ} (enough : count < fuel) :
    skipBlanks (s.putAll (List.replicate (count + 1) ' ' ++ image)).text fuel
      (s.last + 1) = some (s.last + 1 + count) := by
  obtain ⟨first, rest, rfl, nonblank⟩ := unblanked
  have read : ∀ k : ℕ, (bound : k + 1 <
      (List.replicate (count + 1) ' ' ++ first :: rest).length) →
      (s.putAll (List.replicate (count + 1) ' ' ++ first :: rest)).text
        (s.last + 1 + 1 + k) =
      (List.replicate (count + 1) ' ' ++ first :: rest)[k + 1] := by
    intro k bound
    rw [← Buffer.text_putAll_of_inside s _ bound]
    push_cast
    congr 1
    omega
  apply skipBlanks_eq _ _ enough
  · intro k lt
    rw [read k (by simp; omega), List.getElem_append_left (by simp; omega),
      List.getElem_replicate]
  · rw [read count (by simp), List.getElem_append_right (by simp)]
    simpa using nonblank

/-- What the procedures for signed values write: the blank in front takes part in
the padding, and the last blank becomes the minus sign. -/
theorem setSigned_of_neg {width : ℕ}
    (writes : ∀ v w s, setUnsigned v w s = s.putAll (padded w.toInt (layout v)))
    {v : BitVec width} (unblanked : Unblanked (layout (-v).toNat))
    (negative : v.toInt < 0) (w : Integer) (s : Buffer) {fuel : ℕ}
    (enough : ((w - 1).toInt - (layout (-v).toNat).length).toNat < fuel) :
    setSigned setUnsigned fuel v w s =
      some (s.putAll
        (padded ((w - 1).toInt + 1) ('-' :: layout (-v).toNat))) := by
  set image := layout (-v).toNat
  set count := ((w - 1).toInt - image.length).toNat with count_eq
  have written : setUnsigned (-v).toNat (w - 1) (s.put ' ') =
      s.putAll (List.replicate (count + 1) ' ' ++ image) := by
    rw [writes, Buffer.put_eq_putAll, Buffer.putAll_putAll, padded,
      List.replicate_succ]
    rfl
  have target : padded ((w - 1).toInt + 1) ('-' :: image) =
      (List.replicate (count + 1) ' ' ++ image).set count '-' := by
    have same : ((w - 1).toInt + 1 - ('-' :: image).length).toNat = count := by
      rw [List.length_cons, count_eq]
      push_cast
      congr 1
      omega
    rw [padded, same, List.replicate_succ', List.append_assoc,
      List.set_append_right _ _ (by simp)]
    simp
  rw [setSigned, if_neg (by omega)]
  dsimp only
  rw [written, show (s.put ' ').last = s.last + 1 from rfl,
    skipBlanks_putAll s unblanked enough, target,
    ← Buffer.update_putAll s _ (by simp; omega)]
  rfl

theorem setSigned_of_nonneg {width : ℕ}
    (writes : ∀ v w s, setUnsigned v w s = s.putAll (padded w.toInt (layout v)))
    {v : BitVec width} (nonneg : 0 ≤ v.toInt) (w : Integer) (s : Buffer)
    (fuel : ℕ) :
    setSigned setUnsigned fuel v w s =
      some (s.putAll (padded w.toInt (layout v.toNat))) := by
  rw [setSigned, if_pos nonneg, writes]

end Signed

end BasedImages

end AdacHybridMsp430
