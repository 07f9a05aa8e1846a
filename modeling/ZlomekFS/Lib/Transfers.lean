import Mathlib.Tactic

/-! Counted transfers: rounds that each move a part of what is left, until everything is moved, a round moves nothing or
a round fails. The other side says how much a round moved, and the running total is a machine word, so that neither
the bound of the total nor the end of the loop comes for free. -/

namespace Transfers

variable {ρ σ : Type}

inductive Round (ρ σ : Type)
  | stop (code : ρ) (s : σ)
  | moved (len : ℕ) (s : σ)

def Round.state : Round ρ σ → σ
  | .stop _ s => s
  | .moved _ s => s

def Round.map {τ : Type} (view : σ → τ) : Round ρ σ → Round ρ τ
  | .stop code s => .stop code (view s)
  | .moved len s => .moved len (view s)

section Loop
variable (modulus count : ℕ) (round : ℕ → σ → Round ρ σ)

/-- The transfer from `total` on. The result is a code or the total; `none` when the fuel is used up. -/
def loop : ℕ → ℕ → σ → Option (Except ρ ℕ × σ)
  | 0, _, _ => none
  | fuel + 1, total, s =>
    if count ≤ total then some (.ok total, s)
    else
      match round total s with
      | .stop code s => some (.error code, s)
      | .moved len s => if len = 0 then some (.ok total, s) else loop fuel ((total + len) % modulus) s

def visits : ℕ → ℕ → σ → List (ℕ × σ)
  | 0, _, _ => []
  | fuel + 1, total, s =>
    if count ≤ total then []
    else
      (total, s) ::
        match round total s with
        | .stop _ _ => []
        | .moved len s => if len = 0 then [] else visits fuel ((total + len) % modulus) s

end Loop

variable {modulus count : ℕ} {round : ℕ → σ → Round ρ σ} {total : ℕ} {s : σ} {r : Except ρ ℕ × σ}

theorem loop_mono {fuel fuel' : ℕ} (hle : fuel ≤ fuel') (h : loop modulus count round fuel total s = some r) :
    loop modulus count round fuel' total s = some r := by
  induction fuel generalizing fuel' total s with
  | zero => cases h
  | succ fuel ih =>
    obtain ⟨fuel', rfl⟩ := Nat.exists_eq_add_of_le' (Nat.one_le_of_lt hle)
    have hle' : fuel ≤ fuel' := Nat.le_of_succ_le_succ hle
    simp only [loop] at h ⊢
    split_ifs at h ⊢ with hend
    · exact h
    · cases hround : round total s with
      | stop code s' =>
        simp only [hround] at h ⊢
        exact h
      | moved len s' =>
        simp only [hround] at h ⊢
        split_ifs at h ⊢
        · exact h
        · exact ih hle' h

theorem lt_of_mem_visits {fuel : ℕ} {x : ℕ × σ} (hx : x ∈ visits modulus count round fuel total s) : x.1 < count := by
  induction fuel generalizing total s with
  | zero => cases hx
  | succ fuel ih =>
    simp only [visits] at hx
    split_ifs at hx with hend
    · cases hx
    · rcases List.mem_cons.mp hx with rfl | hx
      · exact Nat.lt_of_not_le hend
      · split at hx
        · cases hx
        · split_ifs at hx
          · cases hx
          · exact ih hx

theorem visits_subset {fuel : ℕ} (h : loop modulus count round fuel total s = some r) (n : ℕ) :
    visits modulus count round n total s ⊆ visits modulus count round fuel total s := by
  induction fuel generalizing n total s with
  | zero => cases h
  | succ fuel ih =>
    cases n with
    | zero => exact List.nil_subset _
    | succ n =>
      simp only [loop] at h
      simp only [visits]
      split_ifs at h ⊢ with hend
      · exact List.nil_subset _
      · cases hround : round total s with
        | stop code s' => simp
        | moved len s' =>
          simp only [hround] at h ⊢
          split_ifs at h ⊢
          · simp
          · exact List.cons_subset_cons _ (ih h n)

/-- What the state after a round keeps to the end of the transfer. -/
theorem end_of_visit (Grows : σ → σ → Prop) (hrefl : ∀ s, Grows s s)
    (htrans : ∀ {a b c}, Grows a b → Grows b c → Grows a c) (hround : ∀ t s, Grows s (round t s).state) {fuel : ℕ}
    (h : loop modulus count round fuel total s = some r) :
    Grows s r.2 ∧ ∀ x ∈ visits modulus count round fuel total s, Grows (round x.1 x.2).state r.2 := by
  induction fuel generalizing total s with
  | zero => cases h
  | succ fuel ih =>
    have hgrow := hround total s
    simp only [loop] at h
    simp only [visits]
    split_ifs at h ⊢ with hend
    · cases h
      exact ⟨hrefl _, by simp⟩
    · cases hr : round total s with
      | stop code s' =>
        simp only [hr, Option.some.injEq] at h
        rw [hr] at hgrow
        subst h
        refine ⟨hgrow, fun x hx => ?_⟩
        rw [List.mem_singleton] at hx
        rw [hx, hr]
        exact hrefl _
      | moved len s' =>
        simp only [hr] at h ⊢
        rw [hr] at hgrow
        split_ifs at h ⊢
        · cases h
          refine ⟨hgrow, fun x hx => ?_⟩
          rw [List.mem_singleton] at hx
          rw [hx, hr]
          exact hrefl _
        · obtain ⟨hend', hvisits⟩ := ih h
          refine ⟨htrans hgrow hend', fun x hx => ?_⟩
          rcases List.mem_cons.mp hx with rfl | hx
          · rw [hr]
            exact hend'
          · exact hvisits x hx

/-- A transfer is seen the same way through any view that the rounds respect. -/
theorem loop_map {τ : Type} {round' : ℕ → τ → Round ρ τ} {view : σ → τ}
    (hround : ∀ t s, round' t (view s) = (round t s).map view) (fuel total : ℕ) (s : σ) :
    loop modulus count round' fuel total (view s) =
      (loop modulus count round fuel total s).map fun r => (r.1, view r.2) := by
  induction fuel generalizing total s with
  | zero => rfl
  | succ fuel ih =>
    simp only [loop, hround]
    split_ifs with hend
    · rfl
    · cases round total s with
      | stop code s' => rfl
      | moved len s' =>
        simp only [Round.map]
        split_ifs
        · rfl
        · exact ih _ _

/-- Where no round moves more than what is left, the transfer ends, with at most `count` moved. -/
theorem loop_of_fits (Fits : ℕ × σ → Prop) (I : ℕ → σ → Prop) (J : σ → Prop) (hmod : count < modulus)
    (hmoved : ∀ t s len s', I t s → t < count → Fits (t, s) → round t s = .moved len s' →
      t + len ≤ count ∧ I (t + len) s')
    (hstop : ∀ t s code s', I t s → t < count → Fits (t, s) → round t s = .stop code s' → J s')
    (htotal : total ≤ count) (hI : I total s)
    (hfits : ∀ n, ∀ x ∈ visits modulus count round n total s, Fits x) :
    ∃ r, loop modulus count round (count - total + 1) total s = some r ∧
      (∀ t, r.1 = .ok t → t ≤ count ∧ I t r.2) ∧ ∀ code, r.1 = .error code → J r.2 := by
  -- what is left decreases with each round
  obtain ⟨left, hleft⟩ : ∃ left, count - total = left := ⟨_, rfl⟩
  induction left using Nat.strong_induction_on generalizing total s with
  | _ left ih =>
    simp only [loop]
    split_ifs with hend
    · exact ⟨_, rfl, by simp [htotal, hI], by simp⟩
    · have hlt : total < count := Nat.lt_of_not_le hend
      have hfit : Fits (total, s) := hfits 1 _ (by simp [visits, hend])
      cases hr : round total s with
      | stop code s' =>
        exact ⟨_, rfl, by simp, fun _ _ => hstop total s code s' hI hlt hfit hr⟩
      | moved len s' =>
        obtain ⟨hle, hI'⟩ := hmoved total s len s' hI hlt hfit hr
        simp only
        split_ifs with hlen
        · subst hlen
          exact ⟨_, rfl, by simpa [htotal] using hI', by simp⟩
        · have hword : (total + len) % modulus = total + len := Nat.mod_eq_of_lt (by omega)
          rw [hword]
          obtain ⟨r, hloop, hok, herror⟩ := ih (count - (total + len)) (by omega) hle hI'
            (fun n x hx => hfits (n + 1) x (by simp [visits, hend, hr, hlen, hword, hx])) rfl
          exact ⟨r, loop_mono (by omega) hloop, hok, herror⟩

end Transfers
