import ZlomekFS.Spec.HandleLock

/-! The steps of the threads that lock a file handle, and what holds of its dentries and of the positions of the
threads whatever they do. -/

namespace ZFS.Locking
open Function Threads

/-- The levels are those that are locked, and the tickets and dentries are from the past. -/
def Position.Ok (fh ndentries : ℕ) : Position → Prop
  | .outside => True
  | .waiting _ level k d _ => (level = LEVEL_SHARED ∨ level = LEVEL_EXCLUSIVE) ∧ k ≤ fh ∧ d < ndentries
  | .lookingUp _ level k _ => (level = LEVEL_SHARED ∨ level = LEVEL_EXCLUSIVE) ∧ k ≤ fh
  | .holding level _ _ => level = LEVEL_SHARED ∨ level = LEVEL_EXCLUSIVE

theorem Position.Ok.mono {fh fh' n n' : ℕ} (hfh : fh ≤ fh') (hn : n ≤ n') {p : Position} (h : p.Ok fh n) : p.Ok fh' n' := by
  cases p with
  | outside => trivial
  | waiting f level k d id => exact ⟨h.1, h.2.1.trans hfh, h.2.2.trans_le hn⟩
  | lookingUp f level k id => exact ⟨h.1, h.2.trans hfh⟩
  | holding level k d => exact h

namespace State

variable {ι : Type} {s s' : State ι} {i : ι} {e : Event ι}

def ticketed (s : State ι) : State ι :=
  { s with fhs := update s.fhs s.fh { s.handle with id2assign := s.handle.id2assign + 1 } }

theorem handle_ticketed : s.ticketed.handle = { s.handle with id2assign := s.handle.id2assign + 1 } := update_self _ _ _

section steps

variable [DecidableEq ι]

/-! ## The steps -/

inductive Outcome (s : State ι) : Event ι → State ι → Prop
  | create {i level parent name} : s.position i = .outside → level ≤ LEVEL_EXCLUSIVE →
    Outcome s (.create i level parent name) (s.create i level parent name)
  | move {d parent name} : d ∈ s.chain → Outcome s (.move d parent name)
    { s with dentries := update s.dentries d { s.dentries d with parent := parent, name := name } }
  | disownStale {i d} : d ∈ s.chain → (s.position i = .outside ∨ ∃ level k d', s.position i = .holding level k d' ∧ d' ≠ d) →
    Outcome s (.disown i d) (s.release i d (s.position i))
  | disownHeld {i d level k} : d ∈ s.chain → s.position i = .holding level k d →
    Outcome s (.disown i d) (s.release i d .outside)
  | delete {d} : d ∈ s.chain → Outcome s (.delete d)
    { s with dentries := update s.dentries d { s.dentries d with deleted := true } }
  | remove {d} : d ∈ s.chain → Outcome s (.remove d) (s.remove d)
  | lock {i f level d} : s.position i = .outside → d ∈ s.chain → (level = LEVEL_SHARED ∨ level = LEVEL_EXCLUSIVE) →
    Outcome s (.lock i f level d) (s.lock i f level d)
  | wake {i f level k d id} : s.position i = .waiting f level k d id →
    Outcome s (.wake i) { s with position := update s.position i (.lookingUp f level k id) }
  | lookupFound {i f level k id d rest} : s.position i = .lookingUp f level k id → s.chain = d :: rest →
    Outcome s (.lookup i true) (s.acquire i level d)
  | lookupLost {i found f level k id} : s.position i = .lookingUp f level k id → (found = true → s.chain = []) →
    Outcome s (.lookup i found) { s with position := update s.position i .outside }
  | unlock {i d level k d'} : s.position i = .holding level k d' → d ∈ s.chain →
    Outcome s (.unlock i d) (s.release i d .outside)

theorem outcome_of_step (h : s.step e = some s') : s.Outcome e s' := by
  cases e with
  | create i level parent name =>
    simp only [step, Option.ite_none_right_eq_some, Option.some_inj] at h
    obtain ⟨⟨hpos, hlevel⟩, rfl⟩ := h
    exact .create hpos hlevel
  | move d parent name =>
    simp only [step, Option.ite_none_right_eq_some, Option.some_inj] at h
    obtain ⟨hd, rfl⟩ := h
    exact .move hd
  | disown i d =>
    simp only [step, Option.ite_none_right_eq_some] at h
    obtain ⟨⟨hd, -⟩, h⟩ := h
    cases hpos : s.position i with
    | outside =>
      rw [hpos] at h
      obtain rfl := Option.some_inj.mp h
      simpa only [hpos] using Outcome.disownStale (i := i) hd (.inl hpos)
    | waiting f level k d' id | lookingUp f level k id => simp [hpos] at h
    | holding level k d' =>
      rw [hpos] at h
      obtain rfl := Option.some_inj.mp h
      by_cases hd' : d' = d
      · subst hd'
        rw [if_pos rfl]
        exact .disownHeld hd hpos
      · rw [if_neg hd']
        simpa only [hpos] using Outcome.disownStale (i := i) hd (.inr ⟨level, k, d', hpos, hd'⟩)
  | delete d =>
    simp only [step, Option.ite_none_right_eq_some, Option.some_inj] at h
    obtain ⟨⟨hd, -⟩, rfl⟩ := h
    exact .delete hd
  | remove d =>
    simp only [step, Option.ite_none_right_eq_some, Option.some_inj] at h
    obtain ⟨⟨hd, -⟩, rfl⟩ := h
    exact .remove hd
  | lock i f level d =>
    simp only [step, Option.ite_none_right_eq_some, Option.some_inj] at h
    obtain ⟨⟨hpos, hd, hlevel⟩, rfl⟩ := h
    exact .lock hpos hd hlevel
  | wake i =>
    cases hpos : s.position i with
    | waiting f level k d id =>
      simp only [step, hpos] at h
      split_ifs at h
      obtain rfl := Option.some_inj.mp h
      exact .wake hpos
    | outside | lookingUp f level k id | holding level k d => simp [step, hpos] at h
  | lookup i found =>
    cases hpos : s.position i with
    | lookingUp f level k id =>
      simp only [step, hpos] at h
      split at h
      · rename_i d rest hchain
        obtain rfl := Option.some_inj.mp h
        exact .lookupFound hpos hchain
      · rename_i hlost
        obtain rfl := Option.some_inj.mp h
        refine .lookupLost hpos fun hfound => ?_
        cases hchain : s.chain with
        | nil => rfl
        | cons d rest => exact (hlost d rest hchain hfound).elim
    | outside | waiting f level k d id | holding level k d => simp [step, hpos] at h
  | unlock i d =>
    cases hpos : s.position i with
    | holding level k d' =>
      simp only [step, hpos, Option.ite_none_right_eq_some, Option.some_inj] at h
      obtain ⟨hd, rfl⟩ := h
      exact .unlock hpos hd
    | outside | waiting f level k d id | lookingUp f level k id => simp [step, hpos] at h

theorem handle_acquire {level d : ℕ} (hd : (s.dentries d).fh = s.fh) :
    (s.acquire i level d).handle = s.handle.lock level := by
  simp only [handle, acquire, hd, update_self]

theorem handle_release {d : ℕ} {p : Position} (hd : (s.dentries d).fh = s.fh) :
    (s.release i d p).handle = s.handle.unlock := by
  simp only [handle, release, hd, update_self]

theorem lock_eq {f : LockFunction} {level d : ℕ} (hd : (s.dentries d).fh = s.fh) :
    s.lock i f level d =
      if f.waitForLocked s.handle level then
        { s.ticketed with position := update s.position i (.waiting f level s.fh d s.handle.id2assign) }
      else s.ticketed.acquire i level d := by
  have hwait : f.waitForLocked { s.handle with id2assign := s.handle.id2assign + 1 } level =
      f.waitForLocked s.handle level := by cases f <;> rfl
  rw [← hwait]
  simp only [lock, hd, update_self]
  rfl

end steps

/-! ## The dentries and the positions -/

structure Wf (s : State ι) : Prop where
  chain : ∀ d ∈ s.chain, (s.dentries d).fh = s.fh ∧ d < s.ndentries
  position : ∀ i, (s.position i).Ok s.fh s.ndentries

theorem wf_start : (State.start ι).Wf where
  chain _ hd := by cases hd
  position _ := trivial

theorem Wf.of_step (h : s.Wf) (hfh : s'.fh = s.fh) (hn : s'.ndentries = s.ndentries) (hchain : s'.chain ⊆ s.chain)
    (hdentries : ∀ d, (s'.dentries d).fh = (s.dentries d).fh)
    (hposition : ∀ j, s'.position j = s.position j ∨ (s'.position j).Ok s.fh s.ndentries) : s'.Wf := by
  refine ⟨fun d hd => ?_, fun j => ?_⟩
  · rw [hdentries, hfh, hn]
    exact h.chain d (hchain hd)
  · rw [hfh, hn]
    rcases hposition j with hj | hj
    · rw [hj]
      exact h.position j
    · exact hj

theorem update_dentry {d : ℕ} {dentry : InternalDentry} (hd : dentry.fh = (s.dentries d).fh) (d' : ℕ) :
    (update s.dentries d dentry d').fh = (s.dentries d').fh := by
  by_cases h : d' = d
  · subst h
    rw [update_self, hd]
  · rw [update_of_ne h]

theorem Wf.ticketed (h : s.Wf) : s.ticketed.Wf := ⟨h.chain, h.position⟩

theorem remove_chain_subset (d : ℕ) : (s.remove d).chain ⊆ s.chain := by
  intro d' hd'
  rcases List.mem_append.mp hd' with h | h
  · exact List.mem_of_mem_drop h
  · exact List.mem_of_mem_take h

theorem remove_chain_eq_nil {d : ℕ} (hd : d ∈ s.chain) : (s.remove d).chain = [] ↔ s.chain = [d] := by
  have hlt := List.idxOf_lt_length_iff.mpr hd
  simp only [remove, List.append_eq_nil_iff, List.drop_eq_nil_iff, List.take_eq_nil_iff]
  constructor
  · intro ⟨hlen, hzero⟩
    have hchain : s.chain.length = 1 := by
      rcases hzero with h | h
      · omega
      · rw [h] at hlt
        exact absurd hlt (Nat.not_lt_zero _)
    obtain ⟨d', hd'⟩ := List.length_eq_one_iff.mp hchain
    rw [hd'] at hd ⊢
    rw [List.mem_singleton.mp hd]
  · intro h
    rw [h]
    simp

variable [DecidableEq ι]

theorem update_position {p : Position} (hp : p.Ok s.fh s.ndentries) (i j : ι) :
    update s.position i p j = s.position j ∨ (update s.position i p j).Ok s.fh s.ndentries := by
  by_cases hj : j = i
  · subst hj
    right
    rwa [update_self]
  · left
    rw [update_of_ne hj]

theorem Wf.setPosition (h : s.Wf) (i : ι) (p : Position) (hp : p.Ok s.fh s.ndentries) :
    { s with position := update s.position i p }.Wf :=
  h.of_step rfl rfl (List.Subset.refl _) (fun _ => rfl) (update_position hp i)

theorem Wf.acquire (h : s.Wf) {level : ℕ} (hlevel : level = LEVEL_SHARED ∨ level = LEVEL_EXCLUSIVE) (d : ℕ) :
    (s.acquire i level d).Wf :=
  have hok : (Position.holding level (s.dentries d).fh d).Ok s.fh s.ndentries := hlevel
  h.of_step rfl rfl (List.Subset.refl _) (update_dentry rfl) (update_position hok i)

theorem Wf.release (h : s.Wf) (d : ℕ) {p : Position} (hp : p.Ok s.fh s.ndentries) : (s.release i d p).Wf :=
  h.of_step rfl rfl (List.Subset.refl _) (update_dentry rfl) (update_position hp i)

theorem Wf.create (h : s.Wf) {level : ℕ} (hlevel : level ≤ LEVEL_EXCLUSIVE) (parent : ℕ) (name : String) :
    (s.create i level parent name).Wf := by
  unfold State.create
  split
  · have hpos : ∀ j, (s.position j).Ok (s.fh + 1) (s.ndentries + 1) := fun j => (h.position j).mono (by omega) (by omega)
    dsimp only
    split_ifs with hzero
    · refine ⟨fun d hd => ?_, fun j => ?_⟩
      · obtain rfl := List.mem_singleton.mp hd
        exact ⟨by simp only [update_self], Nat.lt_succ_self _⟩
      · by_cases hj : j = i
        · subst hj
          simp only [update_self, Position.Ok]
          unfold LEVEL_UNLOCKED LEVEL_EXCLUSIVE LEVEL_SHARED at *
          omega
        · simp only [update_of_ne hj]
          exact hpos j
    · refine ⟨fun d hd => ?_, hpos⟩
      obtain rfl := List.mem_singleton.mp hd
      exact ⟨by simp only [update_self], Nat.lt_succ_self _⟩
  · rename_i old rest hchain
    refine ⟨fun d hd => ?_, fun j => (h.position j).mono le_rfl (by dsimp only; omega)⟩
    have hcases : d = s.ndentries ∨ d ∈ s.chain := by
      rw [hchain]
      simp only [List.cons_append, List.mem_cons, List.mem_append, List.not_mem_nil, or_false] at hd
      rcases hd with rfl | hd | rfl
      · exact .inl rfl
      · exact .inr (List.mem_cons_of_mem _ hd)
      · exact .inr List.mem_cons_self
    rcases hcases with rfl | hmem
    · exact ⟨by simp only [update_self], Nat.lt_succ_self _⟩
    · obtain ⟨hfh, hlt⟩ := h.chain d hmem
      exact ⟨by simp only [update_of_ne hlt.ne]; exact hfh, hlt.trans (Nat.lt_succ_self _)⟩

theorem Wf.lock (h : s.Wf) {f : LockFunction} {level d : ℕ} (hd : d ∈ s.chain)
    (hlevel : level = LEVEL_SHARED ∨ level = LEVEL_EXCLUSIVE) : (s.lock i f level d).Wf := by
  obtain ⟨hfh, hlt⟩ := h.chain d hd
  rw [lock_eq hfh]
  split_ifs
  · exact h.ticketed.setPosition i (.waiting f level s.fh d s.handle.id2assign) ⟨hlevel, le_rfl, hlt⟩
  · exact h.ticketed.acquire hlevel d

theorem Wf.step (h : s.Wf) (hstep : s.step e = some s') : s'.Wf := by
  cases outcome_of_step hstep with
  | create hpos hlevel => exact h.create hlevel _ _
  | move hd => exact h.of_step rfl rfl (List.Subset.refl _) (update_dentry rfl) fun _ => .inl rfl
  | disownStale hd hpos => exact h.release _ (h.position _)
  | disownHeld hd hpos => exact h.release _ trivial
  | delete hd => exact h.of_step rfl rfl (List.Subset.refl _) (update_dentry rfl) fun _ => .inl rfl
  | remove hd => exact h.of_step rfl rfl (remove_chain_subset _) (fun _ => rfl) fun _ => .inl rfl
  | lock hpos hd hlevel => exact h.lock hd hlevel
  | wake hpos =>
    have hok := h.position ‹ι›
    rw [hpos] at hok
    exact h.setPosition _ (.lookingUp _ _ _ _) ⟨hok.1, hok.2.1⟩
  | lookupFound hpos hchain =>
    have hok := h.position ‹ι›
    rw [hpos] at hok
    exact h.acquire hok.1 _
  | lookupLost hpos hlost => exact h.setPosition _ .outside trivial
  | unlock hpos hd => exact h.release _ trivial

end State

end ZFS.Locking
