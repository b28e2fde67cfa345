import AdacHybridMsp430.BoundedLoops
import AdacHybridMsp430.RuntimeSystem

/-!
# Tags of tagged types

`Ada.Tags`.  A tag leads to the data of its type, with the names of the type and
a table of its ancestors that makes membership tests take constant time.
`Parent_Tag` goes up one step of the derivation at a time.
-/

namespace AdacHybridMsp430

namespace TypeTags

open BoundedLoops ByteMemory Target

abbrev Tag := Address

def noTag : Tag := 0

/-- `DT_Typeinfo_Ptr_Size`, from the size of an address in bits. -/
def dtTypeinfoPtrSize : ℕ := 1 * (16 / storageUnit)

/-- `Type_Specific_Data`, as far as the subprograms read it. -/
structure TypeSpecificData where
  idepth : ℕ
  expandedName : Address
  externalTag : Address
  tagsTable : ℕ → Tag

/-- Memory, with the records that lie in it. -/
structure Image where
  contents : Contents 16
  typeSpecificData : Address → TypeSpecificData

inductive Fault
  | tagError
deriving DecidableEq

variable (image : Image)

/-- The record that the pointer in front of a dispatch table leads to. -/
def tsd (t : Tag) : TypeSpecificData :=
  image.typeSpecificData
    (readWord byteOrder image.contents (t - BitVec.ofNat 16 dtTypeinfoPtrSize) 2)

/-- `Str (Index)`, whose indices begin with one. -/
def element (str : Address) (index : ℕ) : BitVec 8 :=
  image.contents (str + BitVec.ofNat 16 (index - 1))

/-- `Length`, for as many passes as there is fuel. -/
def length (fuel : ℕ) (str : Address) : Option ℕ :=
  (whileLoop (fun len => element image str len ≠ 0) (· + 1) fuel 1).map (· - 1)

/-- The common text of `Expanded_Name` and `External_Tag`. -/
def nameOf (field : TypeSpecificData → Address) (fuel : ℕ) (t : Tag) :
    Option (Except Fault (List (BitVec 8))) :=
  if t = noTag then some (.error .tagError)
  else
    let result := field (tsd image t)
    (length image fuel result).map fun last =>
      .ok ((List.range last).map fun k => element image result (k + 1))

def expandedName : ℕ → Tag → Option (Except Fault (List (BitVec 8))) :=
  nameOf image TypeSpecificData.expandedName

def externalTag : ℕ → Tag → Option (Except Fault (List (BitVec 8))) :=
  nameOf image TypeSpecificData.externalTag

def parentTag (t : Tag) : Except Fault Tag :=
  if t = noTag then .error .tagError
  else if (tsd image t).idepth = 0 then .ok noTag
  else .ok ((tsd image t).tagsTable 1)

/-- `Parent_Tag`, some number of times. -/
def ancestor : ℕ → Tag → Except Fault Tag
  | 0, t => .ok t
  | k + 1, t => do
      let parent ← parentTag image t
      ancestor k parent

/-- The tags of a program: the table of each type holds the type itself and then
the table of its parent. -/
structure Hierarchy (declared : Tag → Prop) : Prop where
  proper : ∀ t, declared t → t ≠ noTag
  own : ∀ t, declared t → (tsd image t).tagsTable 0 = t
  declares : ∀ t, declared t → 0 < (tsd image t).idepth →
    declared ((tsd image t).tagsTable 1)
  depth : ∀ t, declared t → 0 < (tsd image t).idepth →
    (tsd image ((tsd image t).tagsTable 1)).idepth + 1 = (tsd image t).idepth
  table : ∀ t, declared t → 0 < (tsd image t).idepth →
    ∀ k < (tsd image t).idepth,
      (tsd image ((tsd image t).tagsTable 1)).tagsTable k =
        (tsd image t).tagsTable (k + 1)

section Names

variable {image}

/-- A string ends at its first null character. -/
theorem length_eq_some_iff {fuel : ℕ} {str : Address} {last : ℕ} :
    length image fuel str = some last ↔
      last < fuel ∧ (∀ k < last, element image str (k + 1) ≠ 0) ∧
        element image str (last + 1) = 0 := by
  rw [length, Option.map_eq_some_iff]
  constructor
  · rintro ⟨ended, looped, rfl⟩
    obtain ⟨k, lt, before, ends, rfl⟩ :=
      (whileLoop_eq_some_iff (fun _ => rfl)).mp looped
    exact ⟨lt, fun j below => by simpa using before j below, by simpa using ends⟩
  · rintro ⟨lt, before, ends⟩
    refine ⟨last + 1, ?_, rfl⟩
    apply (whileLoop_eq_some_iff (fun _ => rfl)).mpr
    exact ⟨last, lt, fun j below => by simpa using before j below,
      by simpa using ends, rfl⟩

/-- A name is what is in front of the first null character. -/
theorem nameOf_eq_some_iff (field : TypeSpecificData → Address) {fuel : ℕ} {t : Tag}
    {name : List (BitVec 8)} (proper : t ≠ noTag) :
    nameOf image field fuel t = some (.ok name) ↔
      name.length < fuel ∧ (∀ byte ∈ name, byte ≠ 0) ∧
        (∀ k (lt : k < name.length),
          element image (field (tsd image t)) (k + 1) = name[k]) ∧
        element image (field (tsd image t)) (name.length + 1) = 0 := by
  rw [nameOf, if_neg proper]
  dsimp only
  rw [Option.map_eq_some_iff]
  simp only [length_eq_some_iff, Except.ok.injEq]
  constructor
  · rintro ⟨last, ⟨lt, before, ends⟩, rfl⟩
    simp only [List.length_map, List.length_range, List.getElem_map,
      List.getElem_range, List.forall_mem_map, List.mem_range]
    exact ⟨lt, before, fun _ _ => trivial, ends⟩
  · rintro ⟨lt, nonzero, characters, ends⟩
    refine ⟨name.length, ⟨lt, fun k below => ?_, ends⟩, ?_⟩
    · rw [characters k below]
      exact nonzero _ (List.getElem_mem below)
    · apply List.ext_getElem
      · simp
      · intro k _ below
        simpa using characters k below

/-- How a function returns the string at some address: the characters in front of
its first null character if it has one, and not at all otherwise. -/
structure ReturnsName (image : Image) (str : Address)
    (outcome : ℕ → Option (Except Fault (List (BitVec 8)))) : Prop where
  name : ∀ fuel name, outcome fuel = some (.ok name) ↔
    name.length < fuel ∧ (∀ byte ∈ name, byte ≠ 0) ∧
      (∀ k (lt : k < name.length), element image str (k + 1) = name[k]) ∧
      element image str (name.length + 1) = 0
  proper : ∀ fuel fault, outcome fuel ≠ some (.error fault)
  ends : (∃ k, element image str (k + 1) = 0) →
    ∃ fuel name, outcome fuel = some (.ok name)
  endless : (∀ k, element image str (k + 1) ≠ 0) → ∀ fuel, outcome fuel = none

theorem returnsName_nameOf (field : TypeSpecificData → Address) {t : Tag}
    (proper : t ≠ noTag) :
    ReturnsName image (field (tsd image t)) fun fuel => nameOf image field fuel t where
  name _ _ := nameOf_eq_some_iff field proper
  proper fuel fault failed := by
    rw [nameOf, if_neg proper, Option.map_eq_some_iff] at failed
    obtain ⟨_, _, isError⟩ := failed
    cases isError
  ends null := by
    have counted : length image (Nat.find null + 1) (field (tsd image t)) =
        some (Nat.find null) :=
      length_eq_some_iff.mpr
        ⟨Nat.lt_succ_self _, fun k lt => Nat.find_min null lt, Nat.find_spec null⟩
    refine ⟨Nat.find null + 1, (List.range (Nat.find null)).map fun k =>
      element image (field (tsd image t)) (k + 1), ?_⟩
    rw [nameOf, if_neg proper]
    dsimp only
    rw [counted, Option.map_some]
  endless nonzero fuel := by
    rw [nameOf, if_neg proper]
    dsimp only
    rw [Option.map_eq_none_iff, Option.eq_none_iff_forall_ne_some]
    intro last counted
    exact nonzero last (length_eq_some_iff.mp counted).2.2

end Names

section Ancestors

variable {image} {declared : Tag → Prop}

theorem ancestor_noTag (image : Image) (k : ℕ) : ancestor image (k + 1) noTag = .error .tagError := by
  rw [ancestor, parentTag, if_pos rfl]
  rfl

variable (hierarchy : Hierarchy image declared) {t : Tag} (isDeclared : declared t)
include hierarchy isDeclared

/-- The ancestors of a type are in its table. -/
theorem Hierarchy.ancestor_of_le {k : ℕ} (le : k ≤ (tsd image t).idepth) :
    ancestor image k t = .ok ((tsd image t).tagsTable k) ∧
      declared ((tsd image t).tagsTable k) ∧
      (tsd image ((tsd image t).tagsTable k)).idepth + k = (tsd image t).idepth := by
  induction k generalizing t with
  | zero =>
      rw [hierarchy.own t isDeclared]
      exact ⟨rfl, isDeclared, rfl⟩
  | succ k ih =>
      have positive : 0 < (tsd image t).idepth := Nat.lt_of_lt_of_le k.succ_pos le
      have depth := hierarchy.depth t isDeclared positive
      have table := hierarchy.table t isDeclared positive k le
      obtain ⟨ancestors, isAncestor, below⟩ :=
        ih (hierarchy.declares t isDeclared positive) (by omega)
      rw [table] at ancestors isAncestor below
      refine ⟨?_, isAncestor, by omega⟩
      rw [ancestor, parentTag, if_neg (hierarchy.proper t isDeclared),
        if_neg positive.ne']
      exact ancestors

/-- There is no tag above the root, and nothing above that. -/
theorem Hierarchy.ancestor_of_gt {k : ℕ} (gt : (tsd image t).idepth < k) :
    ancestor image k t =
      if k = (tsd image t).idepth + 1 then .ok noTag else .error .tagError := by
  induction k generalizing t with
  | zero => omega
  | succ k ih =>
      rw [ancestor, parentTag, if_neg (hierarchy.proper t isDeclared)]
      by_cases root : (tsd image t).idepth = 0
      · rw [if_pos root, root]
        cases k with
        | zero => rfl
        | succ k =>
            rw [if_neg (by omega)]
            exact ancestor_noTag image k
      · have positive : 0 < (tsd image t).idepth := Nat.pos_of_ne_zero root
        have depth := hierarchy.depth t isDeclared positive
        have above := ih (hierarchy.declares t isDeclared positive) (by omega)
        rw [if_neg root]
        refine above.trans (if_congr ?_ rfl rfl)
        omega

end Ancestors

/-- `Parent_Tag` leads from a declared type through all of its ancestors to
`No_Tag` and to nothing else, and a type is among them exactly when it is in the
table at the difference of the depths, where a membership test looks for it. -/
theorem ancestors (declared : Tag → Prop) (hierarchy : Hierarchy image declared)
    (t : Tag) (isDeclared : declared t) :
    (∀ k ≤ (tsd image t).idepth,
      ancestor image k t = .ok ((tsd image t).tagsTable k)) ∧
    (∀ k > (tsd image t).idepth, ancestor image k t =
      if k = (tsd image t).idepth + 1 then .ok noTag else .error .tagError) ∧
    ∀ s, declared s →
      ((∃ k, ancestor image k t = .ok s) ↔
        (tsd image s).idepth ≤ (tsd image t).idepth ∧
          (tsd image t).tagsTable ((tsd image t).idepth - (tsd image s).idepth) =
            s) := by
  refine ⟨fun k le => (hierarchy.ancestor_of_le isDeclared le).1,
    fun k gt => hierarchy.ancestor_of_gt isDeclared gt, fun s isType => ?_⟩
  constructor
  · rintro ⟨k, reached⟩
    rcases Nat.lt_or_ge (tsd image t).idepth k with gt | le
    · rw [hierarchy.ancestor_of_gt isDeclared gt] at reached
      split at reached
      · exact absurd (Except.ok.inj reached).symm (hierarchy.proper s isType)
      · cases reached
    · obtain ⟨ancestors, -, depth⟩ := hierarchy.ancestor_of_le isDeclared le
      rw [ancestors] at reached
      have same := Except.ok.inj reached
      rw [same] at depth
      refine ⟨by omega, ?_⟩
      rw [← depth, Nat.add_sub_cancel_left, same]
  · rintro ⟨le, isEntry⟩
    refine ⟨(tsd image t).idepth - (tsd image s).idepth, ?_⟩
    rw [(hierarchy.ancestor_of_le isDeclared (Nat.sub_le _ _)).1, isEntry]

/-- A type with the tag 200, derived from one with the tag 100. -/
def derivation : Image where
  contents address := if address = 198 then 20 else 0
  typeSpecificData address :=
    if address = 20 then ⟨1, 30, 40, fun k => if k = 0 then 200 else 100⟩
    else ⟨0, 50, 60, fun _ => 100⟩

theorem hierarchy_derivation :
    Hierarchy derivation (fun t => t = 100 ∨ t = 200) := by
  have root : tsd derivation 100 = ⟨0, 50, 60, fun _ => 100⟩ := rfl
  have derived : tsd derivation 200 =
      ⟨1, 30, 40, fun k => if k = 0 then 200 else 100⟩ := rfl
  constructor
  · rintro t (rfl | rfl) <;> decide
  · rintro t (rfl | rfl) <;> rfl
  · rintro t (rfl | rfl) positive
    · rw [root] at positive
      exact absurd positive (lt_irrefl 0)
    · exact Or.inl rfl
  · rintro t (rfl | rfl) positive
    · rw [root] at positive
      exact absurd positive (lt_irrefl 0)
    · rfl
  · rintro t (rfl | rfl) positive k below
    · rw [root] at positive
      exact absurd positive (lt_irrefl 0)
    · rw [derived] at below ⊢
      obtain rfl := Nat.lt_one_iff.mp below
      rfl

theorem ancestors_derivation : ∃ k, ancestor derivation k 200 = .ok 100 :=
  ((ancestors derivation _ hierarchy_derivation 200 (Or.inr rfl)).2.2 100
    (Or.inl rfl)).mpr ⟨by decide, rfl⟩

/-- The names of a type are the characters in front of the first null character
of their strings, and there is an exception for `No_Tag` and for no other tag. -/
theorem typeNames (t : Tag) :
    (t = noTag → ∀ fuel, expandedName image fuel t = some (.error .tagError) ∧
      externalTag image fuel t = some (.error .tagError)) ∧
    (t ≠ noTag →
      ReturnsName image (tsd image t).expandedName
        (fun fuel => expandedName image fuel t) ∧
      ReturnsName image (tsd image t).externalTag
        (fun fuel => externalTag image fuel t)) :=
  ⟨fun isNoTag _ => ⟨if_pos isNoTag, if_pos isNoTag⟩,
    fun proper => ⟨returnsName_nameOf _ proper, returnsName_nameOf _ proper⟩⟩

end TypeTags

end AdacHybridMsp430
