import Mathlib.Tactic

/-! Probing. The places of a table are visited from a start on, by a step that goes round the table. -/

namespace Probing

/-! ## The order of the places -/

/-- The place a step further; after the last place comes the first one. -/
def next (size step idx : ℕ) : ℕ := if size ≤ idx + step then idx + step - size else idx + step

section Spots
variable {size step start : ℕ}

theorem iterate_next (h : start < size) (hstep : step ≤ size) (j : ℕ) :
    (next size step)^[j] start = (start + j * step) % size := by
  induction j with
  | zero => rw [Nat.zero_mul, Nat.add_zero, Nat.mod_eq_of_lt h, Function.iterate_zero_apply]
  | succ j ih =>
    have hlt : (start + j * step) % size < size := Nat.mod_lt _ (by omega)
    rw [Function.iterate_succ_apply', ih, Nat.succ_mul, ← Nat.add_assoc, ← Nat.mod_add_mod (start + j * step), next]
    split_ifs with hover
    · rw [Nat.mod_eq_sub_mod hover]
      exact (Nat.mod_eq_of_lt (by omega)).symm
    · exact (Nat.mod_eq_of_lt (by omega)).symm

/-- Steps of a length without a common divisor with the size visit every place before they repeat one. -/
theorem exists_iterate_next (h : start < size) (hstep : step ≤ size) (hco : step.Coprime size) {i : ℕ} (hi : i < size) :
    ∃ j < size, (next size step)^[j] start = i := by
  obtain ⟨j, hj, hmod⟩ := Nat.exists_mul_mod_eq_of_coprime (i + size - start) hco (by omega)
  refine ⟨j, hj, ?_⟩
  have hsum : start + (i + size - start) = i + size := by omega
  rw [iterate_next h hstep, Nat.mul_comm, Nat.add_mod, hmod, ← Nat.add_mod, hsum, Nat.add_mod_right,
    Nat.mod_eq_of_lt hi]

end Spots

/-! ## Walking -/

section Walk
variable {τ : Type} (stop : ℕ → Bool) (note : τ → ℕ → τ)

/-- The first place at which the walk stops, and what was noted at the places before it. -/
def walkBy (next : ℕ → ℕ) : ℕ → ℕ → τ → Option (ℕ × τ)
  | 0, _, _ => none
  | fuel + 1, idx, t => if stop idx then some (idx, t) else walkBy next fuel (next idx) (note t idx)

/-- Linear probing. -/
def walk (size : ℕ) : ℕ → ℕ → τ → Option (ℕ × τ) := walkBy stop note (next size 1)

variable {next : ℕ → ℕ} {start : ℕ}

theorem walkBy_fst {τ' : Type} (note' : τ' → ℕ → τ') (fuel idx : ℕ) (t : τ) (t' : τ') :
    (walkBy stop note next fuel idx t).map Prod.fst = (walkBy stop note' next fuel idx t').map Prod.fst := by
  induction fuel generalizing idx t t' with
  | zero => rfl
  | succ fuel ih =>
    rw [walkBy, walkBy]
    split_ifs
    · rfl
    · exact ih ..

theorem walkBy_eq {d : ℕ} (hstop : stop (next^[d] start)) (hbefore : ∀ j < d, ¬ stop (next^[j] start)) {fuel : ℕ}
    (hf : d < fuel) (t : τ) :
    walkBy stop note next fuel start t =
      some (next^[d] start, ((List.range d).map (next^[·] start)).foldl note t) := by
  obtain ⟨fuel, rfl⟩ : ∃ f, fuel = f + 1 := Nat.exists_eq_succ_of_ne_zero (by omega)
  induction d generalizing start fuel t with
  | zero => rw [walkBy, if_pos (by simpa using hstop), Function.iterate_zero_apply, List.range_zero]; rfl
  | succ d ih =>
    obtain ⟨fuel, rfl⟩ : ∃ f, fuel = f + 1 := Nat.exists_eq_succ_of_ne_zero (by omega)
    have hgo : ¬ stop start := hbefore 0 (by omega)
    rw [walkBy, if_neg hgo, ih hstop (fun j hj => hbefore (j + 1) (by omega)) _ fuel (by omega),
      List.range_succ_eq_map, List.map_cons, List.foldl_cons, List.map_map]
    rfl

/-- A walk that stops somewhere ends at the first such place. -/
theorem exists_walkBy {n j : ℕ} (hj : j < n) (hstop : stop (next^[j] start)) (t : τ) :
    ∃ d < n, stop (next^[d] start) ∧ (∀ j < d, ¬ stop (next^[j] start)) ∧
      walkBy stop note next n start t = some (next^[d] start, ((List.range d).map (next^[·] start)).foldl note t) := by
  have hex : ∃ d, stop (next^[d] start) := ⟨j, hstop⟩
  have hlt : Nat.find hex < n := (Nat.find_min' hex hstop).trans_lt hj
  exact ⟨Nat.find hex, hlt, Nat.find_spec hex, fun k hk => Nat.find_min hex hk,
    walkBy_eq stop note (Nat.find_spec hex) (fun k hk => Nat.find_min hex hk) hlt t⟩

end Walk

/-! ## Counting places -/

/-- The number of places with a property when one place gets another content. -/
theorem count_update {σ : Type} (p : σ → Prop) [DecidablePred p] (slots : ℕ → σ) {i size : ℕ} (hi : i < size) (s : σ) :
    Nat.count (fun j => p (Function.update slots i s j)) size + (if p (slots i) then 1 else 0) =
      Nat.count (fun j => p (slots j)) size + if p s then 1 else 0 := by
  induction size with
  | zero => omega
  | succ size ih =>
    rw [Nat.count_succ, Nat.count_succ]
    rcases Nat.lt_succ_iff_lt_or_eq.mp hi with hlt | rfl
    · have hsame : Function.update slots i s size = slots size := Function.update_of_ne (by omega) ..
      have h := ih hlt
      rw [hsame]
      omega
    · have hbefore : Nat.count (fun j => p (Function.update slots i s j)) i = Nat.count (fun j => p (slots j)) i := by
        rw [Nat.count_eq_card_filter_range, Nat.count_eq_card_filter_range]
        congr 1
        refine Finset.filter_congr fun j hj => ?_
        rw [Function.update_of_ne (by have := Finset.mem_range.mp hj; omega)]
      rw [hbefore, Function.update_self]
      omega

/-- When fewer places than there are have a property, some place does not have it. -/
theorem exists_not_of_count_lt {p : ℕ → Prop} [DecidablePred p] {size : ℕ} (h : Nat.count p size < size) :
    ∃ i < size, ¬ p i := by
  by_contra hall
  have hevery : ∀ i < size, p i := fun i hi => by
    by_contra hp
    exact hall ⟨i, hi, hp⟩
  have hcount : Nat.count p size = size := by
    rw [Nat.count_eq_card_filter_range, Finset.filter_true_of_mem fun i hi => hevery i (Finset.mem_range.mp hi),
      Finset.card_range]
  omega

end Probing
