import Mathlib.Tactic

/-! Loops over a list that a return code may end. `steps` are the rounds that are made, each with the
state it finds, so that a condition on the state before a round can be stated for a whole loop. -/

namespace Loops

variable {α σ ρ : Type} [DecidableEq ρ]

/-- A loop that a code other than `ok` ends. -/
def forEach (ok : ρ) (f : α → σ → ρ × σ) : List α → σ → ρ × σ
  | [], s => (ok, s)
  | a :: as, s =>
    let (r, s) := f a s
    if r ≠ ok then (r, s) else forEach ok f as s

/-- The rounds of the loop with the state before each of them. -/
def steps (ok : ρ) (f : α → σ → ρ × σ) : List α → σ → List (α × σ)
  | [], _ => []
  | a :: as, s => (a, s) :: if (f a s).1 ≠ ok then [] else steps ok f as (f a s).2

variable {ok : ρ} {f : α → σ → ρ × σ}

theorem forEach_inv (ok : ρ) {P : σ → Prop} (hf : ∀ a s, P s → P (f a s).2) (as : List α) :
    ∀ s, P s → P (forEach ok f as s).2 := by
  induction as with
  | nil =>
    intro s hs
    exact hs
  | cons a as ih =>
    intro s hs
    simp only [forEach]
    split_ifs
    · exact hf a s hs
    · exact ih _ (hf a s hs)

/-- What holds after a loop that came to its end; the invariant knows the elements that are left. -/
theorem forEach_end {I : List α → σ → Prop} (hf : ∀ a as s, I (a :: as) s → (f a s).1 = ok → I as (f a s).2)
    (as : List α) : ∀ s, I as s → (forEach ok f as s).1 = ok → I [] (forEach ok f as s).2 := by
  induction as with
  | nil =>
    intro s hs _
    exact hs
  | cons a as ih =>
    intro s hs
    simp only [forEach]
    split_ifs with hr
    · intro h
      exact absurd h hr
    · exact ih _ (hf a as s hs (not_not.mp hr))

theorem forEach_ok {I : List α → σ → Prop} (hf : ∀ a as s, I (a :: as) s → (f a s).1 = ok ∧ I as (f a s).2)
    (as : List α) : ∀ s, I as s → (forEach ok f as s).1 = ok ∧ I [] (forEach ok f as s).2 := by
  induction as with
  | nil =>
    intro s hs
    exact ⟨rfl, hs⟩
  | cons a as ih =>
    intro s hs
    obtain ⟨hr, hs⟩ := hf a as s hs
    simp only [forEach, hr, ne_eq, not_true_eq_false, if_false]
    exact ih _ hs

/-- The loop ends in the state after a round, or there was none. -/
theorem forEach_steps {P : σ → Prop} (as : List α) :
    ∀ s, P s → (∀ x ∈ steps ok f as s, P (f x.1 x.2).2) → P (forEach ok f as s).2 := by
  induction as with
  | nil =>
    intro s hs _
    exact hs
  | cons a as ih =>
    intro s hs h
    simp only [steps, List.forall_mem_cons] at h
    simp only [forEach]
    split_ifs with hr
    · exact h.1
    · rw [if_neg hr] at h
      exact ih _ h.1 h.2

section safe

variable {I : List α → σ → Prop} {P : σ → Prop} {Safe : α → σ → Prop}

/-- The states reached are all good if and only if all rounds are safe. -/
theorem steps_iff (hI : ∀ a as s, I (a :: as) s → (f a s).1 = ok → I as (f a s).2)
    (hP : ∀ a as s, I (a :: as) s → P s → (P (f a s).2 ↔ Safe a s)) (as : List α) :
    ∀ s, I as s → P s → ((∀ x ∈ steps ok f as s, P (f x.1 x.2).2) ↔ ∀ x ∈ steps ok f as s, Safe x.1 x.2) := by
  induction as with
  | nil =>
    intro s _ _
    simp [steps]
  | cons a as ih =>
    intro s hs hp
    simp only [steps, List.forall_mem_cons]
    by_cases hsafe : Safe a s
    · have hp' := (hP a as s hs hp).mpr hsafe
      split_ifs with hr
      · simp [hsafe, hp']
      · simp only [hsafe, hp', true_and]
        exact ih _ (hI a as s hs (not_not.mp hr)) hp'
    · have hp' : ¬ P (f a s).2 := fun h => hsafe ((hP a as s hs hp).mp h)
      simp [hsafe, hp']

/-- A loop of rounds that never repair what is broken ends well if and only if all rounds are safe. -/
theorem forEach_iff (hf : ∀ a as s, I (a :: as) s → (f a s).1 = ok ∧ I as (f a s).2)
    (hP : ∀ a as s, I (a :: as) s → (P (f a s).2 ↔ P s ∧ Safe a s)) (as : List α) :
    ∀ s, I as s → (P (forEach ok f as s).2 ↔ P s ∧ ∀ x ∈ steps ok f as s, Safe x.1 x.2) := by
  induction as with
  | nil =>
    intro s _
    simp [forEach, steps]
  | cons a as ih =>
    intro s hs
    obtain ⟨hr, hs'⟩ := hf a as s hs
    simp only [forEach, steps, hr, ne_eq, not_true_eq_false, if_false, List.forall_mem_cons]
    rw [ih _ hs', hP a as s hs, and_assoc]

end safe

end Loops
