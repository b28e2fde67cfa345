import AdacHybridMsp430.RuntimeSystem
import AdacHybridMsp430.TextBuffers

/-!
# Images of enumeration literals

`System.Img_Enum` and `System.Img_Enum_New` cut the image of a literal out of
the concatenated literals of its type, between two entries of a table of start
positions.  `System.Img_Bool` needs no table.
-/

namespace AdacHybridMsp430

namespace EnumerationImages

open ByteMemory Target TextBuffers

section Program

variable (size : ℕ)

/-- An entry of the table, whose components take `size` bytes. -/
def indexesT (contents : Contents 16) (indexes : Address) (pos : ℕ) : ℤ :=
  (readWord byteOrder contents (indexes + BitVec.ofNat 16 (pos * size))
    size).toInt

/-- The common text of the functions of `System.Img_Enum`. -/
def imageEnumeration (pos : ℕ) (names : ℤ → Char) (indexes : Address)
    (contents : Contents 16) : List Char :=
  let start := indexesT size contents indexes pos
  let next := indexesT size contents indexes (pos + 1)
  Buffer.slice names start (next - start).toNat

/-- The common text of the procedures of `System.Img_Enum_New`. -/
def setImageEnumeration (pos : ℕ) (s : ℤ → Char) (names : ℤ → Char)
    (indexes : Address) (contents : Contents 16) : Buffer :=
  let start := indexesT size contents indexes pos
  let next := indexesT size contents indexes (pos + 1)
  { text := fun i =>
      if 1 ≤ i ∧ i ≤ next - start then names (start + (i - 1)) else s i
    last := next - start }

end Program

def imageEnumeration8 := imageEnumeration 1
def imageEnumeration16 := imageEnumeration 2
def imageEnumeration32 := imageEnumeration 4

def setImageEnumeration8 := setImageEnumeration 1
def setImageEnumeration16 := setImageEnumeration 2
def setImageEnumeration32 := setImageEnumeration 4

def imageBoolean (v : Bool) (s : ℤ → Char) : Buffer :=
  if v then
    { text := (Buffer.putAll { text := s, last := 0 } "TRUE".toList).text
      last := 4 }
  else
    { text := (Buffer.putAll { text := s, last := 0 } "FALSE".toList).text
      last := 5 }

/-- The position where a literal starts in the concatenated ones. -/
def start (literals : List (List Char)) (pos : ℕ) : ℕ :=
  1 + (literals.take pos).flatten.length

/-- The tables of an enumeration type: the concatenated literals, and their
start positions with the one behind the last literal. -/
structure Tables (size : ℕ) (literals : List (List Char)) (names : ℤ → Char)
    (indexes : Address) (contents : Contents 16) : Prop where
  names : Buffer.slice names 1 literals.flatten.length = literals.flatten
  indexes : ∀ pos ≤ literals.length,
    readWord byteOrder contents (indexes + BitVec.ofNat 16 (pos * size)) size =
      BitVec.ofNat (8 * size) (start literals pos)
  fits : start literals literals.length < 2 ^ (8 * size - 1)

section Tables

variable {size : ℕ} {literals : List (List Char)} {names : ℤ → Char}
  {indexes : Address} {contents : Contents 16}

/-- The literals around one of them. -/
theorem flatten_eq {pos : ℕ} (lt : pos < literals.length) :
    literals.flatten =
      (literals.take pos).flatten ++
        (literals[pos] ++ (literals.drop (pos + 1)).flatten) := by
  conv_lhs => rw [← List.take_append_drop pos literals,
    List.drop_eq_getElem_cons lt, List.flatten_append, List.flatten_cons]

theorem start_succ {pos : ℕ} (lt : pos < literals.length) :
    start literals (pos + 1) = start literals pos + literals[pos].length := by
  rw [start, start, List.take_succ_eq_append_getElem lt, List.flatten_append,
    List.length_append, List.flatten_singleton, Nat.add_assoc]

theorem start_le (pos : ℕ) : start literals pos ≤ start literals literals.length := by
  have whole := congrArg (fun list => (List.flatten list).length)
    (List.take_append_drop pos literals)
  simp only [List.flatten_append, List.length_append] at whole
  rw [start, start, List.take_length]
  omega

/-- The entries of the table. -/
theorem Tables.indexesT_eq (tables : Tables size literals names indexes contents)
    {pos : ℕ} (le : pos ≤ literals.length) :
    indexesT size contents indexes pos = start literals pos := by
  have fits := tables.fits
  have below : start literals pos ≤ start literals literals.length := start_le pos
  have sizePos : 0 < size := by
    rw [Nat.pos_iff_ne_zero]
    rintro rfl
    rw [start] at fits
    omega
  have double : 2 ^ (8 * size) = 2 * 2 ^ (8 * size - 1) := by
    rw [← Nat.pow_succ', Nat.succ_eq_add_one, Nat.sub_add_cancel (by omega)]
  have value : (BitVec.ofNat (8 * size) (start literals pos)).toNat =
      start literals pos := by
    rw [BitVec.toNat_ofNat, Nat.mod_eq_of_lt (by omega)]
  rw [indexesT, tables.indexes pos le, BitVec.toInt_eq_toNat_of_lt (by omega), value]

/-- The concatenated literals from a start position on. -/
theorem Tables.slice_eq (tables : Tables size literals names indexes contents)
    {pos : ℕ} (lt : pos < literals.length) :
    Buffer.slice names (start literals pos) literals[pos].length =
      literals[pos] := by
  have whole := tables.names
  rw [flatten_eq lt, List.length_append, List.length_append, Buffer.slice_add,
    Buffer.slice_add] at whole
  have rest := (List.append_inj whole (Buffer.length_slice _ _ _)).2
  have literal := (List.append_inj rest (Buffer.length_slice _ _ _)).1
  rw [start]
  exact_mod_cast literal

end Tables

/-- The image of every literal is cut out by the functions and written by the
procedures, and the literals of `Boolean` are written without tables. -/
theorem enumerationImages (size : ℕ) (literals : List (List Char))
    (names : ℤ → Char) (indexes : Address) (contents : Contents 16)
    (tables : Tables size literals names indexes contents) (s : ℤ → Char) :
    (∀ (pos : ℕ) (lt : pos < literals.length),
      imageEnumeration size pos names indexes contents = literals[pos] ∧
      Buffer.Appended { text := s, last := 0 }
        (setImageEnumeration size pos s names indexes contents) literals[pos]) ∧
    (literals = ["FALSE".toList, "TRUE".toList] →
      ∀ v : Bool, Buffer.Appended { text := s, last := 0 } (imageBoolean v s)
        (imageEnumeration size v.toNat names indexes contents)) := by
  have images : ∀ (pos : ℕ) (lt : pos < literals.length),
      imageEnumeration size pos names indexes contents = literals[pos] := by
    intro pos lt
    have start := tables.indexesT_eq lt.le
    have next := tables.indexesT_eq (Nat.succ_le_of_lt lt)
    rw [start_succ lt] at next
    rw [imageEnumeration, start, next, Nat.cast_add, add_sub_cancel_left, Int.toNat_natCast]
    exact tables.slice_eq lt
  refine ⟨fun pos lt => ⟨images pos lt, ?_⟩, ?_⟩
  · have start := tables.indexesT_eq lt.le
    have next := tables.indexesT_eq (Nat.succ_le_of_lt lt)
    rw [start_succ lt] at next
    have length : indexesT size contents indexes (pos + 1) -
        indexesT size contents indexes pos = literals[pos].length := by
      rw [start, next, Nat.cast_add, add_sub_cancel_left]
    refine ⟨?_, ?_, ?_⟩
    · rw [setImageEnumeration]
      dsimp only
      rw [length, zero_add]
    · conv_rhs => rw [← tables.slice_eq lt]
      apply List.map_congr_left
      intro k member
      have bound := List.mem_range.mp member
      rw [setImageEnumeration]
      dsimp only
      rw [length, if_pos (by omega), start]
      congr 1
      omega
    · intro i outside
      rw [setImageEnumeration] at outside ⊢
      dsimp only at outside ⊢
      rw [length] at outside ⊢
      exact if_neg (by omega)
  · rintro rfl v
    cases v with
    | false =>
        rw [show imageEnumeration size false.toNat names indexes contents =
          "FALSE".toList from images 0 (by decide)]
        exact Buffer.appended_putAll _ _
    | true =>
        rw [show imageEnumeration size true.toNat names indexes contents =
          "TRUE".toList from images 1 (by decide)]
        exact Buffer.appended_putAll _ _

/-- The tables of `Boolean`, at the address zero. -/
theorem tables_boolean :
    Tables 1 ["FALSE".toList, "TRUE".toList]
      (fun i => "FALSETRUE".toList.getD (i - 1).toNat ' ') 0
      (fun address => if address = 0 then 1 else if address = 1 then 6 else 10) := by
  refine ⟨by decide +kernel, ?_, by decide +kernel⟩
  intro pos le
  have cases : pos = 0 ∨ pos = 1 ∨ pos = 2 := by
    simp only [List.length_cons, List.length_nil] at le
    omega
  rcases cases with rfl | rfl | rfl <;> decide +kernel

theorem enumerationImages_boolean :
    imageEnumeration 1 1 (fun i => "FALSETRUE".toList.getD (i - 1).toNat ' ') 0
      (fun address => if address = 0 then 1 else if address = 1 then 6 else 10) =
        "TRUE".toList :=
  ((enumerationImages 1 ["FALSE".toList, "TRUE".toList] _ 0 _ tables_boolean
    fun _ => ' ').1 1 (by decide)).1

end EnumerationImages

end AdacHybridMsp430
