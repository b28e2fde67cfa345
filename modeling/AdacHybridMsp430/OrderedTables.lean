import Mathlib.Data.List.Lemmas
import Mathlib.Data.List.Nodup

/-!
# Tables in insertion order

A table is a list of keys with their values.  Assigning to a key of the table
replaces its value in place, and a new key goes to the end, so that no key
comes twice.
-/

namespace OrderedTables

abbrev Table (Key Value : Type*) := List (Key × Value)

section Operations

variable {Key Value : Type*}

def keys (table : Table Key Value) : List Key :=
  table.map Prod.fst

variable [DecidableEq Key]

def assign (key : Key) (value : Value) :
    Table Key Value → Table Key Value
  | [] => [(key, value)]
  | entry :: table =>
      if entry.1 = key then (key, value) :: table
      else entry :: assign key value table

def lookup (key : Key) : Table Key Value → Option Value
  | [] => none
  | entry :: table =>
      if entry.1 = key then some entry.2 else lookup key table

/-- Change the value of a key. -/
def modifyAt (key : Key) (change : Value → Value) (table : Table Key Value) :
    Table Key Value :=
  table.map fun entry =>
    if entry.1 = key then (entry.1, change entry.2) else entry

@[simp]
theorem keys_modifyAt (key : Key) (change : Value → Value)
    (table : Table Key Value) :
    keys (modifyAt key change table) = keys table := by
  rw [keys, keys, modifyAt, List.map_map]
  refine List.map_congr_left fun entry _ => ?_
  rw [Function.comp_apply]
  split <;> rfl

theorem assign_of_not_mem {key : Key} {table : Table Key Value} (value : Value)
    (absent : key ∉ keys table) :
    assign key value table = table ++ [(key, value)] := by
  induction table with
  | nil => rfl
  | cons entry table ih =>
      rw [keys, List.map_cons, List.mem_cons, not_or] at absent
      rw [assign, if_neg (Ne.symm absent.1), ih absent.2, List.cons_append]

theorem modifyAt_of_not_mem {key : Key} {table : Table Key Value}
    (change : Value → Value) (absent : key ∉ keys table) :
    modifyAt key change table = table := by
  have same : ∀ entry ∈ table,
      (if entry.1 = key then (entry.1, change entry.2) else entry) = entry := by
    intro entry member
    apply if_neg
    rintro rfl
    exact absent (List.mem_map_of_mem member)
  exact List.map_congr_left same |>.trans (List.map_id table)

/-- The last value is the one that changes, if its key is not in front of it. -/
theorem modifyAt_concat {key : Key} {table : Table Key Value}
    (change : Value → Value) (absent : key ∉ keys table) (value : Value) :
    modifyAt key change (table ++ [(key, value)]) =
      table ++ [(key, change value)] := by
  have kept := modifyAt_of_not_mem change absent
  rw [modifyAt] at kept ⊢
  rw [List.map_append, kept, List.map_singleton, if_pos rfl]

theorem keys_assign (key : Key) (value : Value) (table : Table Key Value) :
    keys (assign key value table) =
      if key ∈ keys table then keys table else keys table ++ [key] := by
  induction table with
  | nil => rfl
  | cons entry table ih =>
      by_cases same : entry.1 = key
      · simp [assign, keys, same]
      · simp only [keys, assign, if_neg same, List.map_cons, List.mem_cons,
          Ne.symm same, false_or] at ih ⊢
        rw [ih]
        by_cases member : key ∈ table.map Prod.fst <;> simp [member]

theorem nodup_keys_assign {table : Table Key Value} (key : Key) (value : Value)
    (nodup : (keys table).Nodup) : (keys (assign key value table)).Nodup := by
  rw [keys_assign]
  split
  · exact nodup
  · rename_i absent
    exact List.nodup_append.mpr ⟨nodup, List.nodup_singleton key, by
      rintro old oldMem new newMem rfl
      rw [List.mem_singleton.mp newMem] at oldMem
      exact absent oldMem⟩

theorem mem_assign {key : Key} {value : Value} {table : Table Key Value}
    {entry : Key × Value} (member : entry ∈ assign key value table) :
    entry = (key, value) ∨ entry ∈ table := by
  induction table with
  | nil => exact Or.inl (List.mem_singleton.mp member)
  | cons other table ih =>
      rw [assign] at member
      split at member
      · rcases List.mem_cons.mp member with here | there
        · exact Or.inl here
        · exact Or.inr (List.mem_cons_of_mem _ there)
      · rcases List.mem_cons.mp member with here | there
        · exact Or.inr (here ▸ List.mem_cons_self)
        · exact (ih there).imp_right (List.mem_cons_of_mem _)

theorem mem_of_lookup {key : Key} {value : Value} {table : Table Key Value}
    (looked : lookup key table = some value) : (key, value) ∈ table := by
  induction table with
  | nil => cases looked
  | cons entry table ih =>
      rw [lookup] at looked
      split at looked
      · rename_i same
        obtain rfl := Option.some.inj looked
        rw [← same]
        exact List.mem_cons_self
      · exact List.mem_cons_of_mem _ (ih looked)

@[simp]
theorem lookup_assign (key other : Key) (value : Value)
    (table : Table Key Value) :
    lookup other (assign key value table) =
      if key = other then some value else lookup other table := by
  induction table with
  | nil => rfl
  | cons entry table ih =>
      by_cases here : entry.1 = key
      · rw [assign, if_pos here, lookup, lookup, here]
        split <;> rfl
      · rw [assign, if_neg here, lookup, ih, lookup]
        by_cases same : key = other
        · subst same
          simp [here]
        · simp [same]

@[simp]
theorem lookup_modifyAt (key other : Key) (change : Value → Value)
    (table : Table Key Value) :
    lookup other (modifyAt key change table) =
      if key = other then (lookup other table).map change
      else lookup other table := by
  induction table with
  | nil =>
      rw [modifyAt, List.map_nil, lookup]
      split <;> rfl
  | cons entry table ih =>
      rw [modifyAt, List.map_cons, lookup, ← modifyAt, ih, lookup]
      by_cases here : entry.1 = key
      · rw [if_pos here, here]
        by_cases same : key = other <;> simp [same]
      · rw [if_neg here]
        by_cases same : key = other
        · subst same
          simp [here]
        · simp [same]

end Operations

end OrderedTables
