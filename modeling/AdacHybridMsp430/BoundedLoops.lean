import Mathlib.Order.Basic
import Mathlib.Data.Fin.Basic

/-!
# Loops

A loop runs passes that end with a result or with the variables for the next
pass, for as many passes as there is fuel.  A loop over the range of a counter
always ends and is a fold.
-/

namespace BoundedLoops

variable {S R : Type*}

/-- A loop that ends where a pass has a result. -/
def loop (pass : S → R ⊕ S) : ℕ → S → Option R
  | 0, _ => none
  | fuel + 1, state =>
      match pass state with
      | .inl result => some result
      | .inr next => loop pass fuel next

/-- A loop that ends where the guard is false. -/
def whileLoop (guard : S → Bool) (body : S → S) : ℕ → S → Option S :=
  loop fun state => if guard state then .inr (body state) else .inl state

/-- A loop on the last index, and a single pass on each lower index, downwards,
each as long as its guard is true. -/
def descend {top : ℕ} (guard : Fin (top + 1) → S → Bool)
    (pass : Fin (top + 1) → S → S) (fuel : ℕ) (state : S) : Option S :=
  (whileLoop (guard (Fin.last top)) (pass (Fin.last top)) fuel state).map
    (Fin.foldr top fun n state =>
      if guard n.castSucc state then pass n.castSucc state else state)

/-- An invariant that every pass keeps, and a measure that it makes smaller. -/
theorem loop_spec {pass : S → R ⊕ S} (invariant : S → Prop) (post : R → Prop)
    (measure : S → ℕ)
    (ends : ∀ state result, invariant state → pass state = .inl result →
      post result)
    (goesOn : ∀ state next, invariant state → pass state = .inr next →
      invariant next ∧ measure next < measure state)
    {fuel : ℕ} {state : S} (start : invariant state)
    (enough : measure state < fuel) :
    ∃ result, loop pass fuel state = some result ∧ post result := by
  induction fuel generalizing state with
  | zero => omega
  | succ fuel ih =>
      unfold loop
      cases pass_state : pass state with
      | inl result => exact ⟨result, rfl, ends state result start pass_state⟩
      | inr next =>
          obtain ⟨kept, less⟩ := goesOn state next start pass_state
          apply ih kept
          omega

/-- A loop whose variables are known ends in the first pass that has a result. -/
theorem loop_eq_some_iff {pass : S → R ⊕ S} {states : ℕ → S}
    (follows : ∀ k next, pass (states k) = .inr next → next = states (k + 1))
    {fuel : ℕ} {result : R} :
    loop pass fuel (states 0) = some result ↔
      ∃ k < fuel, (∀ j < k, ∃ next, pass (states j) = .inr next) ∧
        pass (states k) = .inl result := by
  induction fuel generalizing states with
  | zero => simp [loop]
  | succ fuel ih =>
      unfold loop
      cases first : pass (states 0) with
      | inl early =>
          constructor
          · intro ended
            obtain rfl : early = result := Option.some.inj ended
            exact ⟨0, Nat.succ_pos fuel, by simp, first⟩
          · rintro ⟨k, -, goesOn, ends⟩
            cases k with
            | zero => rw [Sum.inl.inj (first.symm.trans ends)]
            | succ k =>
                obtain ⟨next, passed⟩ := goesOn 0 (Nat.succ_pos k)
                simp [first] at passed
      | inr next =>
          obtain rfl := follows 0 next first
          have later := @ih (fun k => states (k + 1)) fun k => follows (k + 1)
          rw [later]
          constructor
          · rintro ⟨k, lt, goesOn, ends⟩
            refine ⟨k + 1, Nat.succ_lt_succ lt, ?_, ends⟩
            intro j before
            cases j with
            | zero => exact ⟨_, first⟩
            | succ j => exact goesOn j (Nat.lt_of_succ_lt_succ before)
          · rintro ⟨k, lt, goesOn, ends⟩
            cases k with
            | zero => simp [first] at ends
            | succ k =>
                exact ⟨k, Nat.lt_of_succ_lt_succ lt,
                  fun j before => goesOn (j + 1) (Nat.succ_lt_succ before), ends⟩

/-- A loop whose variables are known ends in the first ones where the guard is
false. -/
theorem whileLoop_eq_some_iff {guard : S → Bool} {body : S → S} {states : ℕ → S}
    (follows : ∀ k, body (states k) = states (k + 1)) {fuel : ℕ} {last : S} :
    whileLoop guard body fuel (states 0) = some last ↔
      ∃ k < fuel, (∀ j < k, guard (states j) = true) ∧
        guard (states k) = false ∧ states k = last := by
  rw [whileLoop, loop_eq_some_iff]
  · refine exists_congr fun k => and_congr_right fun _ =>
      and_congr (forall₂_congr fun j _ => ?_) ?_
    · cases guard (states j) <;> simp
    · cases guard (states k) <;> simp
  · intro k next passed
    cases true_or_false : guard (states k) with
    | false => simp [true_or_false] at passed
    | true =>
        rw [true_or_false] at passed
        exact (Sum.inr.inj passed).symm.trans (follows k)

theorem whileLoop_spec {guard : S → Bool} {body : S → S}
    (invariant : S → Prop) (measure : S → ℕ)
    (keeps : ∀ state, invariant state → guard state = true →
      invariant (body state) ∧ measure (body state) < measure state)
    {fuel : ℕ} {state : S} (start : invariant state)
    (enough : measure state < fuel) :
    ∃ last, whileLoop guard body fuel state = some last ∧
      invariant last ∧ guard last = false := by
  apply loop_spec invariant _ measure _ _ start enough
  · intro state last holds ended
    cases true_or_false : guard state with
    | false =>
        rw [true_or_false] at ended
        obtain rfl : state = last := Sum.inl.inj ended
        exact ⟨holds, true_or_false⟩
    | true => simp [true_or_false] at ended
  · intro state next holds passed
    cases true_or_false : guard state with
    | false => simp [true_or_false] at passed
    | true =>
        rw [true_or_false] at passed
        obtain rfl : body state = next := Sum.inr.inj passed
        exact keeps state holds true_or_false

/-- Loops on variables of which one are the images of the others. -/
theorem whileLoop_map {T : Type*} (image : S → T) {guard : S → Bool} {body : S → S}
    {imageGuard : T → Bool} {imageBody : T → T}
    (guards : ∀ state, imageGuard (image state) = guard state)
    (bodies : ∀ state, imageBody (image state) = image (body state))
    (fuel : ℕ) (state : S) :
    whileLoop imageGuard imageBody fuel (image state) =
      (whileLoop guard body fuel state).map image := by
  induction fuel generalizing state with
  | zero => rfl
  | succ fuel ih =>
      unfold whileLoop loop
      rw [guards]
      cases guard state with
      | false => rfl
      | true =>
          rw [if_pos rfl, if_pos rfl, bodies]
          exact ih (body state)

/-- An invariant of a loop that counts down, with the number of passes left. -/
theorem foldr_spec {count : ℕ} {step : Fin count → S → S}
    (invariant : ℕ → S → Prop)
    (keeps : ∀ (i : Fin count) state, invariant (i + 1) state →
      invariant i (step i state))
    {state : S} (start : invariant count state) :
    invariant 0 (Fin.foldr count step state) := by
  induction count generalizing state with
  | zero => exact start
  | succ count ih =>
      rw [Fin.foldr_succ_last]
      apply ih
      · intro i state holds
        exact keeps i.castSucc state holds
      · exact keeps (Fin.last count) state start

/-- If the guard of an index is false after one pass where the guard of the next
index was, all of them are false in the end. -/
theorem descend_spec {top : ℕ} {guard : Fin (top + 1) → S → Bool}
    {pass : Fin (top + 1) → S → S} (invariant : S → Prop) (measure : S → ℕ)
    (keeps : ∀ n state, invariant state → guard n state = true →
      invariant (pass n state))
    (less : ∀ state, invariant state → guard (Fin.last top) state = true →
      measure (pass (Fin.last top) state) < measure state)
    (halves : ∀ (n : Fin top) state, invariant state →
      guard n.succ state = false → guard n.castSucc state = true →
      guard n.castSucc (pass n.castSucc state) = false)
    {fuel : ℕ} {state : S} (start : invariant state)
    (enough : measure state < fuel) :
    ∃ last, descend guard pass fuel state = some last ∧
      invariant last ∧ guard 0 last = false := by
  have loops : ∃ last,
      whileLoop (guard (Fin.last top)) (pass (Fin.last top)) fuel state =
          some last ∧
        invariant last ∧ guard (Fin.last top) last = false := by
    apply whileLoop_spec invariant measure _ start enough
    intro state holds passes
    exact ⟨keeps _ state holds passes, less state holds passes⟩
  obtain ⟨reduced, ends, holds, done⟩ := loops
  unfold descend
  rw [ends, Option.map_some]
  refine ⟨_, rfl, ?_⟩
  suffices folded : ∀ n : Fin (top + 1), (n : ℕ) = 0 → invariant _ ∧
      guard n _ = false from folded 0 rfl
  apply foldr_spec fun count state => ∀ n : Fin (top + 1), (n : ℕ) = count →
    invariant state ∧ guard n state = false
  · intro i state above n index
    obtain rfl : n = i.castSucc := Fin.ext index
    obtain ⟨holds, aboveIs⟩ := above i.succ rfl
    cases passes : guard i.castSucc state with
    | false => exact ⟨holds, passes⟩
    | true =>
        exact ⟨keeps _ state holds passes, halves i state holds aboveIs passes⟩
  · intro n index
    obtain rfl : n = Fin.last top := Fin.ext index
    exact ⟨holds, done⟩

end BoundedLoops
