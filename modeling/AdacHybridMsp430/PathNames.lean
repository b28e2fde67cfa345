import Mathlib.Data.List.DropRight

/-!
# Path names

The path operations of the Python standard library that the scripts use, on
POSIX paths.  A Python string is a list of code points.
-/

namespace AdacHybridMsp430

/-- A Python string. -/
abbrev Text := List Char

namespace PathNames

/-- `os.path.basename`: everything after the last slash. -/
def basename (path : Text) : Text :=
  path.rtakeWhile (· != '/')

/-- The part of the final path component before its last dot. -/
def stem (path : Text) : Text :=
  ((basename path).rdropWhile (· != '.')).dropLast

/-- The last dot of the final path component and what follows it. -/
def extension (path : Text) : Text :=
  (basename path).drop (stem path).length

/-- `os.path.splitext`.  A final component whose last dot has only dots before
it has no extension. -/
def splitext (path : Text) : Text × Text :=
  if (stem path).any (· != '.') then
    (path.take (path.length - (extension path).length), extension path)
  else
    (path, [])

theorem slash_not_mem_basename (path : Text) : '/' ∉ basename path := by
  intro member
  simpa using List.mem_rtakeWhile_imp member

/-- The root that `splitext` returns is a prefix of the path. -/
theorem prefix_splitext_fst (path : Text) : (splitext path).1 <+: path := by
  unfold splitext
  split
  · exact List.take_prefix _ _
  · exact List.prefix_refl _

theorem basename_eq_stem_append (path : Text) :
    basename path = stem path ++ extension path := by
  have isPrefix : stem path <+: basename path :=
    (List.dropLast_prefix _).trans (List.rdropWhile_prefix _ _)
  obtain ⟨rest, eq⟩ := isPrefix
  rw [extension, ← eq, List.drop_left]

theorem extension_suffix (path : Text) : extension path <:+ path := by
  have isSuffix : extension path <:+ basename path := by
    rw [basename_eq_stem_append]
    exact List.suffix_append _ _
  exact isSuffix.trans (List.rtakeWhile_suffix _ _)

/-- The parts that `splitext` returns make up the path. -/
theorem splitext_append (path : Text) :
    (splitext path).1 ++ (splitext path).2 = path := by
  unfold splitext
  split
  · obtain ⟨root, eq⟩ := extension_suffix path
    have length := congrArg List.length eq
    rw [List.length_append] at length
    have taken : path.take (path.length - (extension path).length) = root := by
      rw [← length, Nat.add_sub_cancel]
      exact (List.prefix_iff_eq_take.mp ⟨_, eq⟩).symm
    exact (congrArg (· ++ extension path) taken).trans eq
  · exact List.append_nil path

theorem splitext_fst_ne_nil {path : Text} (nonempty : path ≠ []) :
    (splitext path).1 ≠ [] := by
  unfold splitext
  split
  · rename_i named
    have stemPos : 0 < (stem path).length := by
      rw [List.length_pos_iff]
      rintro empty
      rw [empty] at named
      cases named
    have split := congrArg List.length (basename_eq_stem_append path)
    rw [List.length_append] at split
    have bound := (List.rtakeWhile_suffix (· != '/') path).length_le
    rw [← List.length_pos_iff, List.length_take]
    rw [show List.rtakeWhile (· != '/') path = basename path from rfl] at bound
    omega
  · exact nonempty

end PathNames

end AdacHybridMsp430
