import Mathlib.Data.List.Infix

/-!
# Replacing every occurrence of a pattern

Leftmost, non-overlapping replacement of a nonempty pattern in a list, as a
stream editor performs it.  Replacement distributes over a cut next to a
symbol that the pattern does not contain, it shortens exactly the lists in
which a longer pattern occurs, and it neither creates nor destroys occurrences
of a query that cannot overlap the pattern.
-/

namespace ListReplacement

variable {α : Type*} [DecidableEq α]

/-- Replacement while `skip` symbols of a matched occurrence are still to be
dropped. -/
def replaceFrom (pattern replacement : List α) : Nat → List α → List α
  | _, [] => []
  | skip + 1, _ :: rest => replaceFrom pattern replacement skip rest
  | 0, symbol :: rest =>
      if pattern <+: symbol :: rest then
        replacement ++ replaceFrom pattern replacement (pattern.length - 1) rest
      else
        symbol :: replaceFrom pattern replacement 0 rest

/-- Replace the occurrences of a pattern from left to right. -/
def replaceAll (pattern replacement symbols : List α) : List α :=
  replaceFrom pattern replacement 0 symbols

variable {pattern replacement : List α}

theorem replaceFrom_eq_drop (skip : Nat) (symbols : List α) :
    replaceFrom pattern replacement skip symbols =
      replaceAll pattern replacement (symbols.drop skip) := by
  induction symbols generalizing skip with
  | nil => simp [replaceFrom, replaceAll]
  | cons symbol rest ih =>
      cases skip with
      | zero => rfl
      | succ skip => simpa [replaceFrom] using ih skip

@[simp]
theorem replaceAll_nil : replaceAll pattern replacement [] = [] :=
  rfl

theorem replaceAll_pattern_append (nonempty : pattern ≠ []) (rest : List α) :
    replaceAll pattern replacement (pattern ++ rest) =
      replacement ++ replaceAll pattern replacement rest := by
  obtain ⟨first, others, rfl⟩ := List.exists_cons_of_ne_nil nonempty
  have occurs : first :: others <+: first :: (others ++ rest) := by simp
  rw [List.cons_append, replaceAll, replaceFrom, if_pos occurs,
    replaceFrom_eq_drop]
  simp

theorem replaceAll_cons_of_not_starts {symbol : α} {rest : List α}
    (absent : ¬ pattern <+: symbol :: rest) :
    replaceAll pattern replacement (symbol :: rest) =
      symbol :: replaceAll pattern replacement rest := by
  rw [replaceAll, replaceFrom, if_neg absent]
  rfl

/-- The case distinction of replacement as an induction principle: the list is
empty, starts with an occurrence, or starts with a symbol that is kept. -/
theorem replacement_induction {motive : List α → Prop}
    (nonempty : pattern ≠ []) (nil : motive [])
    (occurrence : ∀ rest, motive rest → motive (pattern ++ rest))
    (kept : ∀ symbol rest, ¬ pattern <+: symbol :: rest →
      motive rest → motive (symbol :: rest))
    (symbols : List α) : motive symbols := by
  induction length : symbols.length using Nat.strong_induction_on
    generalizing symbols with
  | _ size ih =>
      cases symbols with
      | nil => exact nil
      | cons symbol rest =>
          by_cases occurs : pattern <+: symbol :: rest
          · obtain ⟨remaining, remainingEq⟩ := occurs
            have positive := List.length_pos_iff.mpr nonempty
            have shorter : remaining.length < size := by
              rw [← length, ← remainingEq, List.length_append]
              omega
            rw [← remainingEq]
            exact occurrence remaining (ih _ shorter remaining rfl)
          · have shorter : rest.length < size := by
              simp [← length]
            exact kept symbol rest occurs (ih _ shorter rest rfl)

omit [DecidableEq α] in
/-- An occurrence cannot straddle a cut before a symbol outside the pattern. -/
theorem prefix_of_prefix_append {first second : List α}
    (boundary : ∀ symbol ∈ second.head?, symbol ∉ pattern)
    (occurs : pattern <+: first ++ second) : pattern <+: first := by
  rcases List.prefix_or_prefix_of_prefix occurs (List.prefix_append first second)
    with inFirst | ⟨overhang, rfl⟩
  · exact inFirst
  · have overhangPrefix : overhang <+: second :=
      (List.prefix_append_right_inj first).mp occurs
    cases overhang with
    | nil => simp
    | cons symbol rest =>
        obtain ⟨remaining, rfl⟩ := overhangPrefix
        exact absurd (by simp) (boundary symbol (by simp))

/-- Replacement distributes over a cut before a symbol outside the pattern. -/
theorem replaceAll_append (nonempty : pattern ≠ []) {first second : List α}
    (boundary : ∀ symbol ∈ second.head?, symbol ∉ pattern) :
    replaceAll pattern replacement (first ++ second) =
      replaceAll pattern replacement first ++
        replaceAll pattern replacement second := by
  induction first using replacement_induction nonempty with
  | nil => simp
  | occurrence rest ih =>
      rw [List.append_assoc, replaceAll_pattern_append nonempty,
        replaceAll_pattern_append nonempty, ih, List.append_assoc]
  | kept symbol rest absent ih =>
      have stillAbsent : ¬ pattern <+: symbol :: (rest ++ second) :=
        fun occurs => absent (prefix_of_prefix_append boundary occurs)
      rw [List.cons_append, replaceAll_cons_of_not_starts stillAbsent,
        replaceAll_cons_of_not_starts absent, ih, List.cons_append]

/-- A symbol outside the pattern is kept, and separates what is before it from
what is after it. -/
theorem replaceAll_append_cons (nonempty : pattern ≠ []) {symbol : α}
    (outside : symbol ∉ pattern) (first second : List α) :
    replaceAll pattern replacement (first ++ symbol :: second) =
      replaceAll pattern replacement first ++
        symbol :: replaceAll pattern replacement second := by
  rw [replaceAll_append nonempty (by simpa using outside),
    replaceAll_cons_of_not_starts]
  intro occurs
  obtain ⟨head, others, rfl⟩ := List.exists_cons_of_ne_nil nonempty
  simp [(List.cons_prefix_cons.mp occurs).1] at outside

theorem replaceAll_cons (nonempty : pattern ≠ []) {symbol : α}
    (outside : symbol ∉ pattern) (rest : List α) :
    replaceAll pattern replacement (symbol :: rest) =
      symbol :: replaceAll pattern replacement rest := by
  have split : replaceAll pattern replacement ([] ++ symbol :: rest) = _ :=
    replaceAll_append_cons nonempty outside [] rest
  simpa using split

theorem replaceAll_append_of_outside (nonempty : pattern ≠ [])
    {first : List α} (outside : ∀ symbol ∈ first, symbol ∉ pattern)
    (second : List α) :
    replaceAll pattern replacement (first ++ second) =
      first ++ replaceAll pattern replacement second := by
  induction first with
  | nil => rfl
  | cons symbol first ih =>
      rw [List.cons_append, replaceAll_cons nonempty (outside symbol (by simp)),
        ih fun other member => outside other (by simp [member]),
        List.cons_append]

theorem replaceAll_eq_nil_iff (nonempty : pattern ≠ [])
    (visible : replacement ≠ []) (symbols : List α) :
    replaceAll pattern replacement symbols = [] ↔ symbols = [] := by
  induction symbols using replacement_induction nonempty with
  | nil => simp
  | occurrence rest ih =>
      simp [replaceAll_pattern_append nonempty, nonempty, visible]
  | kept symbol rest absent ih =>
      simp [replaceAll_cons_of_not_starts absent]

/-- The symbols of the result come from the replacement or the list. -/
theorem mem_replaceAll (nonempty : pattern ≠ []) {symbol : α}
    {symbols : List α}
    (member : symbol ∈ replaceAll pattern replacement symbols) :
    symbol ∈ replacement ∨ symbol ∈ symbols := by
  induction symbols using replacement_induction nonempty with
  | nil => simp at member
  | occurrence rest ih =>
      rw [replaceAll_pattern_append nonempty, List.mem_append] at member
      rcases member with new | old
      · exact Or.inl new
      · exact (ih old).imp_right fun inRest => List.mem_append_right _ inRest
  | kept other rest absent ih =>
      rw [replaceAll_cons_of_not_starts absent, List.mem_cons] at member
      rcases member with rfl | old
      · exact Or.inr (by simp)
      · exact (ih old).imp_right fun inRest => List.mem_cons_of_mem _ inRest

theorem replaceAll_of_not_infix {symbols : List α}
    (absent : ¬ pattern <:+: symbols) :
    replaceAll pattern replacement symbols = symbols := by
  induction symbols with
  | nil => rfl
  | cons symbol rest ih =>
      rw [replaceAll_cons_of_not_starts fun occurs => absent occurs.isInfix,
        ih fun occurs => absent (occurs.trans (List.suffix_cons _ _).isInfix)]

theorem length_replaceAll_le (nonempty : pattern ≠ [])
    (shorter : replacement.length < pattern.length) (symbols : List α) :
    (replaceAll pattern replacement symbols).length ≤ symbols.length := by
  induction symbols using replacement_induction nonempty with
  | nil => simp
  | occurrence rest ih =>
      rw [replaceAll_pattern_append nonempty, List.length_append,
        List.length_append]
      omega
  | kept symbol rest absent ih =>
      simpa [replaceAll_cons_of_not_starts absent] using ih

/-- A shorter replacement leaves exactly the lists without an occurrence
alone. -/
theorem replaceAll_eq_self_iff (nonempty : pattern ≠ [])
    (shorter : replacement.length < pattern.length) (symbols : List α) :
    replaceAll pattern replacement symbols = symbols ↔
      ¬ pattern <:+: symbols := by
  refine ⟨?_, replaceAll_of_not_infix⟩
  induction symbols using replacement_induction nonempty with
  | nil => simpa using nonempty
  | occurrence rest ih =>
      intro same
      have lengths := congrArg List.length same
      have restLength := length_replaceAll_le nonempty shorter rest
      rw [replaceAll_pattern_append nonempty, List.length_append,
        List.length_append] at lengths
      omega
  | kept symbol rest absent ih =>
      intro same occurs
      rw [replaceAll_cons_of_not_starts absent, List.cons.injEq] at same
      rcases List.infix_cons_iff.mp occurs with atHead | inRest
      · exact absent atHead
      · exact ih same.2 inRest

/-- Two lists of which neither starts the other. -/
def Clash (first second : List α) : Prop :=
  ¬ first <+: second ∧ ¬ second <+: first

instance (first second : List α) : Decidable (Clash first second) :=
  inferInstanceAs (Decidable (_ ∧ _))

/-- Every nonempty suffix of `symbols` clashes with `query`, so that the query
cannot start inside `symbols`. -/
def SuffixesClash (symbols query : List α) : Prop :=
  ∀ suffix ∈ symbols.tails, suffix = [] ∨ Clash suffix query

instance (symbols query : List α) : Decidable (SuffixesClash symbols query) :=
  inferInstanceAs (Decidable (∀ suffix ∈ symbols.tails, _))

/-- The query cannot overlap the pattern or its replacement, on either side. -/
structure Unaffected (pattern replacement query : List α) : Prop where
  afterPattern : SuffixesClash pattern query
  afterReplacement : SuffixesClash replacement query
  beforePattern : SuffixesClash query pattern
  beforeReplacement : SuffixesClash query replacement

omit [DecidableEq α] in
theorem SuffixesClash.tail {symbol : α} {symbols query : List α}
    (clash : SuffixesClash (symbol :: symbols) query) :
    SuffixesClash symbols query := fun suffix member =>
  clash suffix (by simpa [List.tails] using Or.inr member)

omit [DecidableEq α] in
theorem SuffixesClash.whole {symbol : α} {symbols query : List α}
    (clash : SuffixesClash (symbol :: symbols) query) :
    Clash (symbol :: symbols) query :=
  (clash _ (by simp)).resolve_left (by simp)

omit [DecidableEq α] in
theorem Clash.symm {first second : List α} (clash : Clash first second) :
    Clash second first :=
  ⟨clash.2, clash.1⟩

omit [DecidableEq α] in
theorem Clash.not_prefix_append {first query : List α}
    (clash : Clash first query) (rest : List α) : ¬ query <+: first ++ rest :=
  fun occurs =>
    (List.prefix_or_prefix_of_prefix occurs (List.prefix_append first rest)).elim
      clash.2 clash.1

omit [DecidableEq α] in
/-- A query that clashes with every suffix of the first part occurs only in
the second. -/
theorem SuffixesClash.infix_append_iff {first query : List α}
    (clash : SuffixesClash first query) (second : List α) :
    query <:+: first ++ second ↔ query <:+: second := by
  induction first with
  | nil => simp
  | cons symbol rest ih =>
      rw [List.cons_append, List.infix_cons_iff, ih clash.tail]
      exact or_iff_right (clash.whole.not_prefix_append second)

/-- Replacement does not change whether a list starts with such a query. -/
theorem prefix_replaceAll_iff (nonempty : pattern ≠ []) {query : List α}
    (beforePattern : SuffixesClash query pattern)
    (beforeReplacement : SuffixesClash query replacement) (symbols : List α) :
    query <+: replaceAll pattern replacement symbols ↔ query <+: symbols := by
  induction query generalizing symbols with
  | nil => simp
  | cons wanted query ih =>
      by_cases occurs : pattern <+: symbols
      · obtain ⟨rest, rfl⟩ := occurs
        rw [replaceAll_pattern_append nonempty]
        exact iff_of_false
          (beforeReplacement.whole.symm.not_prefix_append _)
          (beforePattern.whole.symm.not_prefix_append _)
      · cases symbols with
        | nil => simp
        | cons symbol rest =>
            rw [replaceAll_cons_of_not_starts occurs, List.cons_prefix_cons,
              List.cons_prefix_cons,
              ih beforePattern.tail beforeReplacement.tail]

/-- Replacement neither creates nor destroys occurrences of a query that
cannot overlap the pattern or its replacement. -/
theorem infix_replaceAll_iff (nonempty : pattern ≠ []) {query : List α}
    (unaffected : Unaffected pattern replacement query) (symbols : List α) :
    query <:+: replaceAll pattern replacement symbols ↔ query <:+: symbols := by
  induction symbols using replacement_induction nonempty with
  | nil => simp
  | occurrence rest ih =>
      rw [replaceAll_pattern_append nonempty,
        unaffected.afterReplacement.infix_append_iff,
        unaffected.afterPattern.infix_append_iff, ih]
  | kept symbol rest absent ih =>
      have atHead := prefix_replaceAll_iff nonempty unaffected.beforePattern
        unaffected.beforeReplacement (symbol :: rest)
      rw [replaceAll_cons_of_not_starts absent] at atHead ⊢
      rw [List.infix_cons_iff, List.infix_cons_iff, ih, atHead]

end ListReplacement
