import Mathlib.Tactic

/-! Finitely many threads, each at a position of its own: how many of them are at certain positions. -/

namespace Threads

variable {ι α : Type} [Fintype ι]

def count (p : α → Bool) (f : ι → α) : ℕ := (Finset.univ.filter fun i => p (f i) = true).card

theorem count_update [DecidableEq ι] (p : α → Bool) (f : ι → α) (i : ι) (a : α) :
    count p (Function.update f i a) + (p (f i)).toNat = count p f + (p a).toNat := by
  have hsum : ∀ g : ι → α, count p g = ∑ j, (p (g j)).toNat := by
    intro g
    rw [count, Finset.card_filter]
    exact Finset.sum_congr rfl fun j _ => by cases p (g j) <;> rfl
  have hfun : (fun j => (p (Function.update f i a j)).toNat) =
      Function.update (fun j => (p (f j)).toNat) i (p a).toNat := by
    funext j
    by_cases hj : j = i
    · subst hj
      simp
    · simp [hj]
  rw [hsum, hsum, hfun, Finset.sum_update_of_mem (Finset.mem_univ i),
    ← Finset.sum_sdiff (Finset.subset_univ {i}), Finset.sum_singleton]
  omega

theorem count_eq_zero {p : α → Bool} {f : ι → α} : count p f = 0 ↔ ∀ i, p (f i) = false := by
  rw [count, Finset.card_eq_zero, Finset.filter_eq_empty_iff]
  simp

end Threads
