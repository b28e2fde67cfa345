import AdacHybridMsp430.BasedImages

/-!
# Images of characters

`System.Img_Char` and `System.Img_WChar`.  The control characters have names,
some of which are shorter than the three characters that are written for them,
the others of `Character` are quoted, and the rest are written in hexadecimal.
-/

namespace AdacHybridMsp430

namespace CharacterImages

open BasedImages BasedNumerals Target TextBuffers

abbrev Character := BitVec 8

abbrev WideCharacter := BitVec 16

/-- `Wide_Wide_Character`, which has codes of 31 bits. -/
abbrev WideWideCharacter := BitVec 31

def c0 : List (List Char) :=
  ["NUL", "SOH", "STX", "ETX", "EOT", "ENQ", "ACK", "BEL",
    "BS ", "HT ", "LF ", "VT ", "FF ", "CR ", "SO ", "SI ",
    "DLE", "DC1", "DC2", "DC3", "DC4", "NAK", "SYN", "ETB",
    "CAN", "EM ", "SUB", "ESC", "FS ", "GS ", "RS ", "US "].map String.toList

def c1 : List (List Char) :=
  ["DEL", "res", "res", "BPH", "NBH", "res", "NEL", "SSA",
    "ESA", "HTS", "HTJ", "VTS", "PLD", "PLU", "RI ", "SS2",
    "SS3", "DCS", "PU1", "PU2", "STS", "CCH", "MW ", "SPA",
    "EPA", "SOS", "res", "SCI", "CSI", "ST ", "OSC", "PM ",
    "APC"].map String.toList

def quote : Char := Char.ofNat 39

def reserved : List Char := "RESERVED_".toList

def softHyphen : List Char := "SOFT_HYPHEN".toList

def hexStart : List Char := "Hex_".toList

/-- `S (1 .. characters'Length) := characters`. -/
def assign (s : ℤ → Char) (characters : List Char) : ℤ → Char :=
  (Buffer.putAll { text := s, last := 0 } characters).text

def imageCharacter (v : Character) (s : ℤ → Char) : Buffer :=
  if v ≤ 0x1F then
    let s := assign s (c0.getD v.toNat [])
    { text := s, last := if s 3 = ' ' then 2 else 3 }
  else if 0x7F ≤ v ∧ v ≤ 0x9F then
    let s := assign s (c1.getD (v.toNat - 0x7F) [])
    if s 1 ≠ 'r' then
      { text := s, last := if s 3 = ' ' then 2 else 3 }
    else
      let vp := v.toNat
      let s := assign s reserved
      let s := Function.update s 10 (Char.ofNat (48 + vp / 100))
      let s := Function.update s 11 (Char.ofNat (48 + vp / 10 % 10))
      let s := Function.update s 12 (Char.ofNat (48 + vp % 10))
      { text := s, last := 12 }
  else
    let s := Function.update s 1 quote
    let s := Function.update s 2 (Char.ofNat v.toNat)
    let s := Function.update s 3 quote
    { text := s, last := 3 }

def imageCharacter05 (v : Character) (s : ℤ → Char) : Buffer :=
  if v = 0xAD then
    { text := assign s softHyphen, last := 11 }
  else
    imageCharacter v s

/-- The loop over the hexadecimal digits, from the last one on. -/
def setHex : ℕ → Unsigned → (ℤ → Char) → ℤ → Char
  | 0, _, s => s
  | j + 1, val, s =>
      setHex j (val / 16) (Function.update s (5 + j) (hex (val % 16).toNat))

def imageWideWideCharacter (v : WideWideCharacter) (s : ℤ → Char) : Buffer :=
  let val : Unsigned := v.setWidth 32
  if val ≤ 0xFF then
    imageCharacter05 (v.setWidth 8) s
  else
    { text := setHex 8 val (assign s hexStart), last := 12 }

def imageWideCharacter (v : WideCharacter) (s : ℤ → Char) (ada2005 : Bool) :
    Buffer :=
  if 0xFFFE ≤ v ∧ ada2005 = false then
    if v = 0xFFFE then
      { text := assign s "FFFE".toList, last := 4 }
    else
      { text := assign s "FFFF".toList, last := 4 }
  else if v = 0xAD ∧ ada2005 = false then
    let s := Function.update s 1 quote
    let s := Function.update s 2 (Char.ofNat 0xAD)
    let s := Function.update s 3 quote
    { text := s, last := 3 }
  else
    imageWideWideCharacter (v.setWidth 31) s

/-- `S (1 .. P)`. -/
def imageText (image : Buffer) : List Char :=
  Buffer.slice image.text 1 image.last.toNat

/-- A name without the blank that may end it. -/
def trimmed (name : List Char) : List Char :=
  if name.getLast? = some ' ' then name.dropLast else name

/-- The control characters, by their names in `Ada.Characters.Latin_1`. -/
def controlNames : List (List Char × ℕ) :=
  [("NUL", 0), ("SOH", 1), ("STX", 2), ("ETX", 3), ("EOT", 4), ("ENQ", 5),
    ("ACK", 6), ("BEL", 7), ("BS", 8), ("HT", 9), ("LF", 10), ("VT", 11),
    ("FF", 12), ("CR", 13), ("SO", 14), ("SI", 15), ("DLE", 16), ("DC1", 17),
    ("DC2", 18), ("DC3", 19), ("DC4", 20), ("NAK", 21), ("SYN", 22),
    ("ETB", 23), ("CAN", 24), ("EM", 25), ("SUB", 26), ("ESC", 27),
    ("FS", 28), ("GS", 29), ("RS", 30), ("US", 31), ("DEL", 127),
    ("RESERVED_128", 128), ("RESERVED_129", 129), ("BPH", 130), ("NBH", 131),
    ("RESERVED_132", 132), ("NEL", 133), ("SSA", 134), ("ESA", 135),
    ("HTS", 136), ("HTJ", 137), ("VTS", 138), ("PLD", 139), ("PLU", 140),
    ("RI", 141), ("SS2", 142), ("SS3", 143), ("DCS", 144), ("PU1", 145),
    ("PU2", 146), ("STS", 147), ("CCH", 148), ("MW", 149), ("SPA", 150),
    ("EPA", 151), ("SOS", 152), ("RESERVED_153", 153), ("SCI", 154),
    ("CSI", 155), ("ST", 156), ("OSC", 157), ("PM", 158),
    ("APC", 159)].map fun (name, code) => (name.toList, code)

/-- The names since Ada 2005. -/
def names2005 : List (List Char × ℕ) :=
  controlNames ++ [("SOFT_HYPHEN".toList, 0xAD)]

/-- The names of the wide characters before. -/
def wideNames : List (List Char × ℕ) :=
  controlNames ++ [("FFFE".toList, 0xFFFE), ("FFFF".toList, 0xFFFF)]

/-- The value of a digit in base sixteen, with capital letters. -/
def hexDigitValue (character : Char) : Option ℕ :=
  if '0' ≤ character ∧ character ≤ '9' then some (character.toNat - 48)
  else if 'A' ≤ character ∧ character ≤ 'F' then some (character.toNat - 55)
  else none

/-- An image of the character with some code: the name of a character that has
one, a graphic character in quotes, or eight digits in base sixteen. -/
inductive Denotes (names : List (List Char × ℕ)) (image : List Char)
    (code : ℕ) : Prop
  | name (listed : (image, code) ∈ names)
  | graphic (narrow : code ≤ 0xFF) (unnamed : ∀ name, (name, code) ∉ names)
      (quoted : image = [quote, Char.ofNat code, quote])
  | hexadecimal (wide : 0xFF < code) (unnamed : ∀ name, (name, code) ∉ names)
      (digits : List Char) (text : image = "Hex_".toList ++ digits)
      (eight : digits.length = 8) (values : List ℕ)
      (areDigits : digits.map hexDigitValue = values.map some)
      (value : numeralValue 16 values = code)

/-- The image of a character of eight bits. -/
def characterText (v : ℕ) : List Char :=
  if v ≤ 0x1F then trimmed (c0.getD v [])
  else if 0x7F ≤ v ∧ v ≤ 0x9F then
    let name := c1.getD (v - 0x7F) []
    if name.head? ≠ some 'r' then trimmed name
    else reserved ++ [hex (v / 100), hex (v / 10 % 10), hex (v % 10)]
  else [quote, Char.ofNat v, quote]

/-- A character has an image with its code in a string of twelve characters. -/
structure IsImage (names : List (List Char × ℕ)) (code : ℕ) (s : ℤ → Char)
    (image : Buffer) : Prop where
  denotes : Denotes names (imageText image) code
  fits : 2 ≤ image.last ∧ image.last ≤ 12
  kept : ∀ i, i < 1 ∨ 12 < i → image.text i = s i

section Names

/-- All names. -/
def allNames : List (List Char × ℕ) :=
  controlNames ++ [("SOFT_HYPHEN".toList, 0xAD), ("FFFE".toList, 0xFFFE),
    ("FFFF".toList, 0xFFFF)]

/-- A number for a name. -/
def nameKey (name : List Char) : ℕ :=
  name.foldl (fun key character => 256 * key + character.toNat) 0

theorem nodup_nameKeys : (allNames.map fun entry => nameKey entry.1).Nodup := by
  decide +kernel

theorem code_eq_of_name_eq {entry other : List Char × ℕ} (mem : entry ∈ allNames)
    (otherMem : other ∈ allNames) (same : entry.1 = other.1) : entry.2 = other.2 :=
  congrArg Prod.snd (List.inj_on_of_nodup_map nodup_nameKeys mem otherMem
    (congrArg nameKey same))

/-- A name is neither quoted nor in base sixteen. -/
theorem start_of_mem_allNames : ∀ entry ∈ allNames,
    entry.1.head? ≠ some quote ∧ entry.1.take 4 ≠ ['H', 'e', 'x', '_'] := by
  decide +kernel

/-- The control characters, in the order of their codes. -/
theorem controlNames_eq : controlNames =
    (List.range 32 ++ List.range' 127 33).map fun v => (characterText v, v) := by
  decide +kernel

theorem mem_controlNames_iff {name : List Char} {v : ℕ} :
    (name, v) ∈ controlNames ↔
      (v ≤ 0x1F ∨ 0x7F ≤ v ∧ v ≤ 0x9F) ∧ name = characterText v := by
  have control : v ∈ List.range 32 ++ List.range' 127 33 ↔
      v ≤ 0x1F ∨ 0x7F ≤ v ∧ v ≤ 0x9F := by
    rw [List.mem_append, List.mem_range, List.mem_range'_1]
    omega
  rw [controlNames_eq, List.mem_map, ← control]
  constructor
  · rintro ⟨code, member, same⟩
    obtain ⟨rfl, rfl⟩ := Prod.mk.inj same
    exact ⟨member, rfl⟩
  · rintro ⟨member, rfl⟩
    exact ⟨v, member, rfl⟩

variable {names : List (List Char × ℕ)} {image : List Char} {code other : ℕ}

theorem hexStart_eq : hexStart = ['H', 'e', 'x', '_'] := by
  decide +kernel

theorem take_of_hexadecimal {digits : List Char}
    (text : image = "Hex_".toList ++ digits) :
    image.take 4 = ['H', 'e', 'x', '_'] := by
  rw [text, ← hexStart, hexStart_eq]
  rfl

theorem not_quoted_of_hexadecimal {digits : List Char}
    (text : image = "Hex_".toList ++ digits) : image.head? ≠ some quote := by
  rw [text, ← hexStart, hexStart_eq]
  intro same
  exact absurd (Option.some_inj.mp same) (by decide)

theorem toNat_ofNat_of_narrow (narrow : code ≤ 0xFF) :
    (Char.ofNat code).toNat = code := by
  rw [Char.ofNat, dif_pos (Or.inl (by omega))]
  rfl

theorem ofNat_inj_of_narrow (narrow : code ≤ 0xFF) (otherNarrow : other ≤ 0xFF)
    (same : Char.ofNat code = Char.ofNat other) : code = other := by
  rw [← toNat_ofNat_of_narrow narrow, same, toNat_ofNat_of_narrow otherNarrow]

/-- No image denotes two characters. -/
theorem Denotes.unique (within : names ⊆ allNames)
    (first : Denotes names image code) (second : Denotes names image other) :
    code = other := by
  cases first with
  | name listed =>
      have start := start_of_mem_allNames _ (within listed)
      cases second with
      | name also =>
          exact code_eq_of_name_eq (within listed) (within also) rfl
      | graphic _ _ quoted =>
          exact absurd (congrArg List.head? quoted) start.1
      | hexadecimal _ _ digits text =>
          exact absurd (take_of_hexadecimal text) start.2
  | graphic narrow _ quoted =>
      cases second with
      | name also =>
          exact absurd (congrArg List.head? quoted)
            (start_of_mem_allNames _ (within also)).1
      | graphic otherNarrow _ otherQuoted =>
          rw [quoted] at otherQuoted
          injection otherQuoted with _ rest
          injection rest with same _
          exact ofNat_inj_of_narrow narrow otherNarrow same
      | hexadecimal _ _ digits text =>
          exact absurd (congrArg List.head? quoted) (not_quoted_of_hexadecimal text)
  | hexadecimal _ _ digits text _ values areDigits value =>
      cases second with
      | name also =>
          exact absurd (take_of_hexadecimal text)
            (start_of_mem_allNames _ (within also)).2
      | graphic _ _ quoted =>
          exact absurd (congrArg List.head? quoted) (not_quoted_of_hexadecimal text)
      | hexadecimal _ _ otherDigits otherText _ otherValues areOther otherValue =>
          obtain rfl : digits = otherDigits :=
            List.append_cancel_left (text.symm.trans otherText)
          have same : values = otherValues :=
            List.map_injective_iff.mpr (Option.some_injective ℕ)
              (areDigits.symm.trans areOther)
          rw [← value, ← otherValue, same]

/-- Another list of names is as good if it has the same ones for the code. -/
theorem Denotes.of_names {more : List (List Char × ℕ)}
    (denotes : Denotes names image code)
    (same : ∀ name, (name, code) ∈ names ↔ (name, code) ∈ more) :
    Denotes more image code := by
  cases denotes with
  | name listed => exact .name ((same image).mp listed)
  | graphic narrow unnamed quoted =>
      exact .graphic narrow (fun name => (same name).not.mp (unnamed name)) quoted
  | hexadecimal wide unnamed digits text eight values areDigits value =>
      exact .hexadecimal wide (fun name => (same name).not.mp (unnamed name))
        digits text eight values areDigits value

end Names

section Assignments

variable (s : ℤ → Char) (characters : List Char)

theorem update_assign (character : Char) {i : ℤ} (next : i = characters.length + 1) :
    Function.update (assign s characters) i character =
      assign s (characters ++ [character]) := by
  rw [assign, assign, ← Buffer.putAll_putAll, ← Buffer.put_eq_putAll, Buffer.put,
    Buffer.last_putAll, next, zero_add]

theorem imageText_assign :
    imageText { text := assign s characters, last := characters.length } =
      characters := by
  have written := Buffer.slice_putAll { text := s, last := 0 } characters
  simpa [imageText, assign] using written

theorem assign_of_outside {i : ℤ} (outside : i < 1 ∨ characters.length < i) :
    assign s characters i = s i := by
  apply Buffer.text_putAll_of_outside
  dsimp only
  omega

/-- An image that is written in one piece. -/
theorem isImage_assign {names : List (List Char × ℕ)} {code : ℕ}
    (denotes : Denotes names characters code)
    (fits : 2 ≤ characters.length ∧ characters.length ≤ 12) :
    IsImage names code s
      { text := assign s characters, last := characters.length } where
  denotes := by rwa [imageText_assign]
  fits := by
    dsimp only
    omega
  kept i outside := assign_of_outside s characters (by omega)

/-- What is written before an image that is written in one piece does not
matter. -/
theorem IsImage.of_kept {names : List (List Char × ℕ)} {code : ℕ}
    {s before : ℤ → Char} {image : Buffer}
    (isImage : IsImage names code before image)
    (kept : ∀ i, i < 1 ∨ 12 < i → before i = s i) : IsImage names code s image where
  denotes := isImage.denotes
  fits := isImage.fits
  kept i outside := (isImage.kept i outside).trans (kept i outside)

theorem IsImage.of_names {names more : List (List Char × ℕ)} {code : ℕ}
    {image : Buffer} (isImage : IsImage names code s image)
    (same : ∀ name, (name, code) ∈ names ↔ (name, code) ∈ more) :
    IsImage more code s image where
  denotes := isImage.denotes.of_names same
  fits := isImage.fits
  kept := isImage.kept

/-- A name of three characters is trimmed. -/
theorem isImage_name {names : List (List Char × ℕ)} {code : ℕ} {name : List Char}
    (length : name.length = 3) (denotes : Denotes names (trimmed name) code) :
    IsImage names code s
      { text := assign s name
        last := if assign s name 3 = ' ' then 2 else 3 } := by
  obtain ⟨first, second, third, rfl⟩ := List.length_eq_three.mp length
  have last : assign s [first, second, third] 3 = third := by
    simp [assign, Buffer.putAll, Buffer.put]
  have pair : imageText
      { text := assign s [first, second, third], last := 2 } =
        [first, second] := by
    simp [imageText, Buffer.slice, List.range_succ, assign, Buffer.putAll,
      Buffer.put]
  refine ⟨?_, ?_, ?_⟩
  · rw [last]
    by_cases blank : third = ' '
    · rw [if_pos blank, pair]
      rwa [trimmed, if_pos (by simp [blank])] at denotes
    · have whole : imageText
          { text := assign s [first, second, third], last := 3 } =
            [first, second, third] :=
        imageText_assign s [first, second, third]
      rw [if_neg blank, whole]
      rwa [trimmed, if_neg (by simp [blank])] at denotes
  · dsimp only
    split <;> omega
  · intro i outside
    apply assign_of_outside s [first, second, third]
    rw [length]
    omega

end Assignments

section Characters

theorem denotes_characterText {v : ℕ} (narrow : v ≤ 0xFF) :
    Denotes controlNames (characterText v) v := by
  by_cases control : v ≤ 0x1F ∨ 0x7F ≤ v ∧ v ≤ 0x9F
  · exact .name (mem_controlNames_iff.mpr ⟨control, rfl⟩)
  · refine .graphic narrow (fun name listed => ?_) ?_
    · exact control (mem_controlNames_iff.mp listed).1
    · rw [not_or] at control
      rw [characterText, if_neg control.1, if_neg control.2]

theorem length_c0 : ∀ v ≤ 0x1F, (c0.getD v []).length = 3 := by
  decide +kernel

theorem length_c1 : ∀ v ≤ 0x20, (c1.getD v []).length = 3 := by
  decide +kernel

theorem length_reserved : reserved.length = 9 := by
  decide +kernel

theorem hex_of_lt : ∀ digit < 10, Char.ofNat (48 + digit) = hex digit := by
  decide

theorem isImage_imageCharacter (v : Character) (s : ℤ → Char) :
    IsImage controlNames v.toNat s (imageCharacter v s) := by
  have bound := v.isLt
  have denotes := denotes_characterText (v := v.toNat) (by omega)
  unfold characterText at denotes
  unfold imageCharacter
  by_cases low : v ≤ 0x1F
  · have lowNat : v.toNat ≤ 0x1F := low
    rw [if_pos low]
    rw [if_pos lowNat] at denotes
    exact isImage_name s (length_c0 _ lowNat) denotes
  rw [if_neg low]
  have notLow : ¬ v.toNat ≤ 0x1F := low
  rw [if_neg notLow] at denotes
  by_cases high : 0x7F ≤ v ∧ v ≤ 0x9F
  · have highNat : 0x7F ≤ v.toNat ∧ v.toNat ≤ 0x9F := high
    rw [if_pos high]
    rw [if_pos highNat] at denotes
    have length := length_c1 (v.toNat - 0x7F) (by omega)
    generalize c1.getD (v.toNat - 0x7F) [] = name at denotes length ⊢
    have first : name.head? = some (assign s name 1) := by
      obtain ⟨first, second, third, rfl⟩ := List.length_eq_three.mp length
      simp [assign, Buffer.putAll, Buffer.put]
    dsimp only at denotes ⊢
    rw [first] at denotes
    by_cases isReserved : assign s name 1 = 'r'
    · rw [if_neg (by simp [isReserved])]
      rw [if_neg (by simp [isReserved])] at denotes
      rw [update_assign _ _ _ (by rfl), update_assign _ _ _ (by rfl),
        update_assign _ _ _ (by rfl), hex_of_lt _ (by omega),
        hex_of_lt _ (by omega), hex_of_lt _ (by omega)]
      apply IsImage.of_kept (isImage_assign _ _ denotes (by simp [length_reserved]))
      intro i outside
      apply assign_of_outside
      omega
    · rw [if_pos isReserved]
      rw [if_pos (by simpa using isReserved)] at denotes
      exact isImage_name s length denotes
  · have notHigh : ¬ (0x7F ≤ v.toNat ∧ v.toNat ≤ 0x9F) := high
    rw [if_neg high]
    rw [if_neg notHigh] at denotes
    exact isImage_assign s [quote, Char.ofNat v.toNat, quote] denotes (by simp)

theorem isImage_imageCharacter05 (v : Character) (s : ℤ → Char) :
    IsImage names2005 v.toNat s (imageCharacter05 v s) := by
  unfold imageCharacter05
  split
  · rename_i isHyphen
    rw [isHyphen]
    exact isImage_assign s softHyphen
      (.name (List.mem_append_right _ List.mem_cons_self)) (by decide +kernel)
  · rename_i notHyphen
    have different : v.toNat ≠ 0xAD := fun same =>
      notHyphen (BitVec.eq_of_toNat_eq same)
    apply (isImage_imageCharacter v s).of_names
    simp [names2005, different]

end Characters

section Hexadecimal

/-- The last digits of a number in base sixteen, as many as are asked for. -/
def lastDigits : ℕ → ℕ → List ℕ
  | 0, _ => []
  | count + 1, n => lastDigits count (n / 16) ++ [n % 16]

@[simp]
theorem length_lastDigits (count n : ℕ) : (lastDigits count n).length = count := by
  induction count generalizing n with
  | zero => rfl
  | succ count ih => rw [lastDigits, List.length_append, ih]; rfl

theorem numeralValue_lastDigits (count n : ℕ) :
    numeralValue 16 (lastDigits count n) = n % 16 ^ count := by
  induction count generalizing n with
  | zero => rw [pow_zero, Nat.mod_one]; rfl
  | succ count ih =>
      have higher := ih (n / 16)
      rw [numeralValue] at higher ⊢
      rw [lastDigits, List.reverse_append, List.reverse_singleton,
        List.singleton_append, Nat.ofDigits_cons, higher, Nat.pow_succ',
        Nat.mod_mul]

theorem lt_of_mem_lastDigits {count n digit : ℕ}
    (member : digit ∈ lastDigits count n) : digit < 16 := by
  induction count generalizing n with
  | zero => cases member
  | succ count ih =>
      rcases List.mem_append.mp member with early | last
      · exact ih early
      · rw [List.mem_singleton.mp last]
        omega

theorem hexDigitValue_hex : ∀ digit < 16, hexDigitValue (hex digit) = some digit := by
  decide

theorem map_hexDigitValue_hex {digits : List ℕ}
    (areDigits : ∀ digit ∈ digits, digit < 16) :
    (digits.map hex).map hexDigitValue = digits.map some := by
  rw [List.map_map]
  exact List.map_congr_left fun digit member =>
    hexDigitValue_hex digit (areDigits digit member)

/-- The loop writes the last digits of the value, and nothing else. -/
theorem setHex_spec (count : ℕ) (val : Unsigned) (s : ℤ → Char) :
    Buffer.slice (setHex count val s) 5 count =
        (lastDigits count val.toNat).map hex ∧
      ∀ i : ℤ, i < 5 ∨ 5 + count ≤ i → setHex count val s i = s i := by
  induction count generalizing val s with
  | zero => exact ⟨rfl, fun _ _ => rfl⟩
  | succ count ih =>
      obtain ⟨digits, kept⟩ := ih (val / 16)
        (Function.update s (5 + count) (hex (val % 16).toNat))
      rw [setHex]
      constructor
      · rw [Buffer.slice_succ, digits, kept _ (by omega), Function.update_self,
          lastDigits, List.map_append, BitVec.toNat_udiv, BitVec.toNat_umod]
        rfl
      · intro i outside
        rw [kept i (by omega), Function.update_of_ne (by omega)]

theorem denotes_hex {v : ℕ} (wide : 0xFF < v) (lt : v < 16 ^ 8) :
    Denotes names2005 (hexStart ++ (lastDigits 8 v).map hex) v := by
  refine .hexadecimal wide (fun name listed => ?_) ((lastDigits 8 v).map hex) rfl
    (by rw [List.length_map, length_lastDigits]) (lastDigits 8 v)
    (map_hexDigitValue_hex fun digit member => lt_of_mem_lastDigits member) ?_
  · rw [names2005, List.mem_append, mem_controlNames_iff] at listed
    simp only [List.mem_singleton, Prod.mk.injEq] at listed
    omega
  · rw [numeralValue_lastDigits, Nat.mod_eq_of_lt lt]

/-- Images in hexadecimal. -/
theorem isImage_setHex (val : Unsigned) (s : ℤ → Char) (wide : 0xFF < val.toNat) :
    IsImage names2005 val.toNat s
      { text := setHex 8 val (assign s hexStart), last := 12 } := by
  obtain ⟨digits, kept⟩ := setHex_spec 8 val (assign s hexStart)
  have four : hexStart.length = 4 := by
    rw [hexStart_eq]
    rfl
  refine ⟨?_, show (2 : ℤ) ≤ 12 ∧ (12 : ℤ) ≤ 12 by decide, ?_⟩
  · have start : Buffer.slice (setHex 8 val (assign s hexStart)) 1 4 = hexStart := by
      have written := imageText_assign s hexStart
      rw [four] at written
      rw [← written]
      apply Buffer.slice_congr
      intro i lower upper
      exact kept i (by omega)
    have text : imageText
        { text := setHex 8 val (assign s hexStart), last := 12 } =
          hexStart ++ (lastDigits 8 val.toNat).map hex := by
      rw [← digits, ← start]
      exact Buffer.slice_add _ 1 4 8
    rw [text]
    exact denotes_hex wide val.isLt
  · intro i outside
    dsimp only
    rw [kept i (by omega), assign_of_outside _ _ (by omega)]

end Hexadecimal

theorem isImage_imageWideWideCharacter (v : WideWideCharacter) (s : ℤ → Char) :
    IsImage names2005 v.toNat s (imageWideWideCharacter v s) := by
  have bound := v.isLt
  have value : (v.setWidth 32).toNat = v.toNat := by
    rw [BitVec.toNat_setWidth, Nat.mod_eq_of_lt (by omega)]
  unfold imageWideWideCharacter
  dsimp only
  by_cases narrow : v.setWidth 32 ≤ (0xFF : Unsigned)
  · have small : (v.setWidth 8).toNat = v.toNat := by
      rw [BitVec.le_def, value] at narrow
      rw [BitVec.toNat_setWidth]
      exact Nat.mod_eq_of_lt (Nat.lt_succ_of_le narrow)
    rw [if_pos narrow, ← small]
    exact isImage_imageCharacter05 _ s
  · rw [if_neg narrow, ← value]
    exact isImage_setHex _ s (not_le.mp narrow)

theorem isImage_wide (v : WideCharacter) (s : ℤ → Char) :
    IsImage names2005 v.toNat s (imageWideWideCharacter (v.setWidth 31) s) := by
  have bound := v.isLt
  have wide := isImage_imageWideWideCharacter (v.setWidth 31) s
  rwa [BitVec.toNat_setWidth, Nat.mod_eq_of_lt (by omega)] at wide

theorem isImage_imageWideCharacter_2005 (v : WideCharacter) (s : ℤ → Char) :
    IsImage names2005 v.toNat s (imageWideCharacter v s true) := by
  rw [imageWideCharacter, if_neg (by simp), if_neg (by simp)]
  exact isImage_wide v s

theorem isImage_imageWideCharacter_95 (v : WideCharacter) (s : ℤ → Char) :
    IsImage wideNames v.toNat s (imageWideCharacter v s false) := by
  have differs : ∀ code : WideCharacter, v ≠ code → v.toNat ≠ code.toNat :=
    fun code different same => different (BitVec.eq_of_toNat_eq same)
  by_cases isFFFE : v = 0xFFFE
  · rw [isFFFE]
    exact isImage_assign s "FFFE".toList
      (.name (List.mem_append_right _ List.mem_cons_self)) (by decide +kernel)
  by_cases isFFFF : v = 0xFFFF
  · rw [isFFFF]
    exact isImage_assign s "FFFF".toList
      (.name (List.mem_append_right _ (List.mem_cons_of_mem _ List.mem_cons_self)))
      (by decide +kernel)
  have notFFFE : v.toNat ≠ 0xFFFE := differs 0xFFFE isFFFE
  have notFFFF : v.toNat ≠ 0xFFFF := differs 0xFFFF isFFFF
  have below : ¬ (0xFFFE ≤ v ∧ false = false) := fun last => by
    have above : 0xFFFE ≤ v.toNat := last.1
    have bound := v.isLt
    omega
  rw [imageWideCharacter, if_neg below]
  by_cases isHyphen : v = 0xAD
  · rw [isHyphen]
    exact isImage_assign s [quote, Char.ofNat 0xAD, quote]
      (.graphic (by decide) (fun name listed => by
        simp [wideNames, mem_controlNames_iff] at listed) rfl) (by decide)
  · have notHyphen : v.toNat ≠ 0xAD := differs 0xAD isHyphen
    rw [if_neg fun hyphen => isHyphen hyphen.1]
    apply (isImage_wide v s).of_names
    simp [names2005, wideNames, notHyphen, notFFFE, notFFFF]

/-- The image of every character denotes it and no other one, whatever the string
held, and fits into twelve characters. -/
theorem characterImages (s : ℤ → Char) :
    (∀ names ∈ [controlNames, names2005, wideNames], ∀ image code other,
      Denotes names image code → Denotes names image other → code = other) ∧
    (∀ v : Character, IsImage controlNames v.toNat s (imageCharacter v s) ∧
      IsImage names2005 v.toNat s (imageCharacter05 v s)) ∧
    (∀ v : WideWideCharacter,
      IsImage names2005 v.toNat s (imageWideWideCharacter v s)) ∧
    ∀ v : WideCharacter,
      IsImage names2005 v.toNat s (imageWideCharacter v s true) ∧
      IsImage wideNames v.toNat s (imageWideCharacter v s false) := by
  refine ⟨?_, fun v => ⟨isImage_imageCharacter v s, isImage_imageCharacter05 v s⟩,
    fun v => isImage_imageWideWideCharacter v s,
    fun v => ⟨isImage_imageWideCharacter_2005 v s, isImage_imageWideCharacter_95 v s⟩⟩
  intro names listed image code other first second
  refine first.unique ?_ second
  simp only [List.mem_cons, List.not_mem_nil, or_false] at listed
  rcases listed with rfl | rfl | rfl
  · exact List.subset_append_left _ _
  · simp [names2005, allNames]
  · simp [wideNames, allNames]

end CharacterImages

end AdacHybridMsp430
