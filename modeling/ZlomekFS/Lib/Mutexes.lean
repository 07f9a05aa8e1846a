import Mathlib.Tactic

/-! What a thread does with mutexes: which of them it holds, and in which order it takes them. -/

namespace Mutexes

variable {μ : Type} [DecidableEq μ]

inductive Op (μ : Type)
  | lock (m : μ)
  | unlock (m : μ)
  deriving DecidableEq, Repr

/-- A mutex that is held cannot be locked, and only one that is held can be unlocked. -/
def Op.apply (held : List μ) : Op μ → Option (List μ)
  | .lock m => if m ∈ held then none else some (m :: held)
  | .unlock m => if m ∈ held then some (held.erase m) else none

def run : List (Op μ) → List μ → Option (List μ)
  | [], held => some held
  | op :: ops, held => (op.apply held).bind (run ops)

def order : List (Op μ) → List μ → List (μ × μ)
  | [], _ => []
  | op :: ops, held =>
    (match op with
      | .lock m => held.map (·, m)
      | .unlock _ => []) ++
    match op.apply held with
    | some held => order ops held
    | none => []

/-- Nothing is left locked, and mutexes are taken in a certain order. -/
@[mk_iff]
structure Keeps (R : μ → μ → Prop) (ops : List (Op μ)) : Prop where
  balanced : run ops [] = some []
  ordered : ∀ p ∈ order ops [], R p.1 p.2

theorem run_append (ops ops' : List (Op μ)) (held : List μ) : run (ops ++ ops') held = (run ops held).bind (run ops') := by
  induction ops generalizing held with
  | nil => rfl
  | cons op ops ih =>
    rw [List.cons_append, run, run, Option.bind_assoc]
    exact congrArg _ (funext ih)

theorem order_append (ops ops' : List (Op μ)) {held held' : List μ} (h : run ops held = some held') :
    order (ops ++ ops') held = order ops held ++ order ops' held' := by
  induction ops generalizing held with
  | nil =>
    obtain rfl := Option.some.inj h
    rfl
  | cons op ops ih =>
    obtain ⟨held1, happly, hrun⟩ := Option.bind_eq_some_iff.mp h
    simp only [List.cons_append, order, happly, List.append_assoc, ih hrun]

theorem Keeps.append {R : μ → μ → Prop} {ops ops' : List (Op μ)} (h : Keeps R ops) (h' : Keeps R ops') :
    Keeps R (ops ++ ops') := by
  refine ⟨?_, fun p hp => ?_⟩
  · rw [run_append, h.balanced]
    exact h'.balanced
  · rw [order_append ops ops' h.balanced] at hp
    exact (List.mem_append.mp hp).elim (h.ordered p) (h'.ordered p)

theorem Keeps.nil (R : μ → μ → Prop) : Keeps R [] := ⟨rfl, fun _ h => absurd h List.not_mem_nil⟩

theorem Keeps.flatten {R : μ → μ → Prop} {parts : List (List (Op μ))} (h : ∀ ops ∈ parts, Keeps R ops) :
    Keeps R parts.flatten := by
  induction parts with
  | nil => exact Keeps.nil R
  | cons ops parts ih =>
    rw [List.forall_mem_cons] at h
    exact h.1.append (ih h.2)

/-- The operations lead from the mutexes in one list to those in the other one. -/
def Leads (held : List μ) (ops : List (Op μ)) (held' : List μ) : Prop :=
  (run ops held).any (·.isPerm held') = true

instance (held held' : List μ) (ops : List (Op μ)) : Decidable (Leads held ops held') :=
  inferInstanceAs (Decidable (_ = true))

theorem leads_iff {held held' : List μ} {ops : List (Op μ)} :
    Leads held ops held' ↔ ∃ l, run ops held = some l ∧ l.Perm held' := by
  simp only [Leads, Option.any_eq_true, List.isPerm_iff]

theorem leads_nil {held : List μ} {ops : List (Op μ)} : Leads held ops [] ↔ run ops held = some [] := by
  simp [leads_iff]

theorem Leads.of_perm {held held' l : List μ} {ops : List (Op μ)} (hl : held.Perm l) (h : Leads l ops held') :
    Leads held ops held' := by
  rw [leads_iff] at h ⊢
  induction ops generalizing held l with
  | nil =>
    obtain ⟨r, hr, hperm⟩ := h
    exact ⟨held, rfl, hl.trans (Option.some.inj hr ▸ hperm)⟩
  | cons op ops ih =>
    obtain ⟨r, hr, hperm⟩ := h
    obtain ⟨l', happly, hr⟩ := Option.bind_eq_some_iff.mp hr
    have hstep : ∃ held1, op.apply held = some held1 ∧ held1.Perm l' := by
      cases op with
      | lock m =>
        simp only [Op.apply, hl.mem_iff] at happly ⊢
        split_ifs at happly ⊢
        exact ⟨_, rfl, Option.some.inj happly ▸ hl.cons m⟩
      | unlock m =>
        simp only [Op.apply, hl.mem_iff] at happly ⊢
        split_ifs at happly ⊢
        exact ⟨_, rfl, Option.some.inj happly ▸ hl.erase m⟩
    obtain ⟨held1, hheld, hl'⟩ := hstep
    obtain ⟨r', hr', hperm'⟩ := ih hl' ⟨r, hr, hperm⟩
    exact ⟨r', Option.bind_eq_some_iff.mpr ⟨held1, hheld, hr'⟩, hperm'⟩

/-- After operations that lead somewhere only what comes next matters. -/
theorem Leads.append_iff {a b c : List μ} {ops ops' : List (Op μ)} (h : Leads a ops b) :
    Leads a (ops ++ ops') c ↔ Leads b ops' c := by
  obtain ⟨l, hl, hperm⟩ := leads_iff.mp h
  have happend : Leads a (ops ++ ops') c ↔ Leads l ops' c := by
    rw [Leads, run_append, hl]
    rfl
  exact happend.trans ⟨Leads.of_perm hperm.symm, Leads.of_perm hperm⟩

omit [DecidableEq μ] in
theorem acyclic_of_rank {R : μ → μ → Prop} (rank : μ → ℕ) (h : ∀ a b, R a b → rank a < rank b) (m : μ) :
    ¬ Relation.TransGen R m m := by
  have hlt : ∀ {a b}, Relation.TransGen R a b → rank a < rank b := by
    intro a b hab
    induction hab with
    | single hr => exact h _ _ hr
    | tail _ hr ih => exact ih.trans (h _ _ hr)
  exact fun hm => lt_irrefl _ (hlt hm)

/-! ## Threads -/

/-- What a thread holds, and what it has still to do. -/
structure Thread (μ : Type) where
  held : List μ
  rest : List (Op μ)

section threads
variable {ι : Type} [DecidableEq ι] {R : μ → μ → Prop} {ts ts' : ι → Thread μ}

/-- One of the threads goes on. It cannot lock a mutex that one of them holds. -/
inductive Step (ts : ι → Thread μ) : (ι → Thread μ) → Prop
  | go {i : ι} {op : Op μ} {ops : List (Op μ)} {held : List μ} (hrest : (ts i).rest = op :: ops)
    (hfree : ∀ m j, op = .lock m → m ∉ (ts j).held) (happly : op.apply (ts i).held = some held) :
    Step ts (Function.update ts i ⟨held, ops⟩)

/-- Each thread ends with nothing locked and keeps to the order up to there. -/
def Orderly (R : μ → μ → Prop) (ts : ι → Thread μ) : Prop :=
  ∀ i, run (ts i).rest (ts i).held = some [] ∧ ∀ p ∈ order (ts i).rest (ts i).held, R p.1 p.2

theorem Orderly.step (h : Orderly R ts) (hs : Step ts ts') : Orderly R ts' := by
  obtain ⟨hrest, -, happly⟩ := hs
  rename_i i op ops held
  intro j
  by_cases hj : j = i
  · subst hj
    have hj := h j
    rw [hrest] at hj
    simp only [run, order, happly] at hj
    rw [Function.update_self]
    exact ⟨hj.1, fun p hp => hj.2 p (List.mem_append_right _ hp)⟩
  · rw [Function.update_of_ne hj]
    exact h j

omit [DecidableEq ι] in
theorem Orderly.held_eq_nil (h : Orderly R ts) {i : ι} (hnil : (ts i).rest = []) : (ts i).held = [] := by
  simpa [hnil, run] using (h i).1

/-- With mutexes taken in the order of a rank, some thread can go on unless all are done. -/
theorem Orderly.progress [Finite ι] (h : Orderly R ts) {rank : μ → ℕ} (hrank : ∀ a b, R a b → rank a < rank b) {i : ι}
    (hi : (ts i).rest ≠ []) : ∃ ts', Step ts ts' := by
  by_contra hstuck
  -- otherwise each of them waits for a mutex whose holder waits for one of a higher rank
  have hwait : ∀ i, (ts i).rest ≠ [] → ∃ m ops j, (ts i).rest = .lock m :: ops ∧ m ∈ (ts j).held := by
    intro i hi
    obtain ⟨op, ops, hrest⟩ := List.exists_cons_of_ne_nil hi
    have hrun := (h i).1
    rw [hrest, run] at hrun
    obtain ⟨held, happly, -⟩ := Option.bind_eq_some_iff.mp hrun
    by_contra hfree
    refine hstuck ⟨_, .go hrest (fun m j hop hm => hfree ⟨m, ops, j, ?_, hm⟩) happly⟩
    rw [hrest, hop]
  have hbusy : ∀ {j m}, m ∈ (ts j).held → (ts j).rest ≠ [] := fun hm hnil =>
    List.ne_nil_of_mem hm (h.held_eq_nil hnil)
  choose m ops j hlock hheld using hwait
  have : Nonempty {i // (ts i).rest ≠ []} := ⟨⟨i, hi⟩⟩
  obtain ⟨⟨i, hi⟩, hmax⟩ := Finite.exists_max fun i : {i // (ts i).rest ≠ []} => rank (m i.1 i.2)
  have hj := hbusy (hheld i hi)
  have hlt : rank (m i hi) < rank (m (j i hi) hj) := by
    refine hrank _ _ ((h (j i hi)).2 (m i hi, m (j i hi) hj) ?_)
    rw [hlock _ hj]
    exact List.mem_append_left _ (List.mem_map.mpr ⟨_, hheld i hi, rfl⟩)
  exact absurd (hmax ⟨j i hi, hj⟩) (Nat.not_le.mpr hlt)

end threads

end Mutexes
