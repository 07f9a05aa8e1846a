import ZlomekFS.Proofs.HandleLock

/-! The lock of a file handle excludes other threads as long as no thread gets between the loop of a thread that
waits and its lookup. -/

namespace ZFS.Locking
open Function Threads Position

namespace State

variable {ι : Type} {s s' : State ι} {i : ι} {e : Event ι}

/-! ## Steps that leave the lock as it is -/

structure SameLock (s s' : State ι) : Prop where
  fh : s'.fh = s.fh
  chain : s'.chain = [] ↔ s.chain = []
  position : ∀ i level k d, s'.position i = .holding level k d ↔ s.position i = .holding level k d
  users : s'.handle.users = s.handle.users
  level : s'.handle.level = s.handle.level

/-- The holders have locked the handle to the level that it has. -/
def Levelled (s : State ι) : Prop := ∀ i level k d, s.position i = .holding level k d → s.handle.level = level

theorem SameLock.levelled (h : SameLock s s') (hl : s.Levelled) : s'.Levelled := by
  intro i level k d hpos
  rw [h.level]
  exact hl i level k d ((h.position i level k d).mp hpos)

theorem holds_eq_false (k : ℕ) (h : ∀ level k d, s.position i ≠ .holding level k d) : (s.position i).holds k = false := by
  cases hp : s.position i with
  | holding level k d => exact absurd hp (h level k d)
  | outside | waiting | lookingUp => rfl

theorem SameLock.holds (h : SameLock s s') (i : ι) (k : ℕ) : (s'.position i).holds k = (s.position i).holds k := by
  have hiff := h.position i
  cases hp : s.position i with
  | holding level k' d =>
    rw [(hiff level k' d).mpr hp]
  | outside | waiting | lookingUp =>
    cases hp' : s'.position i with
    | holding level k' d =>
      rw [hp, hp'] at hiff
      exact nomatch (hiff level k' d).mp rfl
    | outside | waiting | lookingUp => rfl

theorem SameLock.symm (h : SameLock s s') : SameLock s' s :=
  ⟨h.fh.symm, h.chain.symm, fun i level k d => (h.position i level k d).symm, h.users.symm, h.level.symm⟩

theorem SameLock.trans {s'' : State ι} (h : SameLock s s') (h' : SameLock s' s'') : SameLock s s'' :=
  ⟨h'.fh.trans h.fh, h'.chain.trans h.chain, fun i level k d => (h'.position i level k d).trans (h.position i level k d),
    h'.users.trans h.users, h'.level.trans h.level⟩

theorem sameLock_ticketed : SameLock s s.ticketed :=
  ⟨rfl, Iff.rfl, fun _ _ _ _ => Iff.rfl, by rw [handle_ticketed], by rw [handle_ticketed]⟩

theorem sameLock_dentries (dentries : ℕ → InternalDentry) : SameLock s { s with dentries := dentries } :=
  ⟨rfl, Iff.rfl, fun _ _ _ _ => Iff.rfl, rfl, rfl⟩

theorem le_exclusive_of_not_wait {f : LockFunction} {fh : InternalFh} {level : ℕ}
    (hlevel : level = LEVEL_SHARED ∨ level = LEVEL_EXCLUSIVE) (h : f.waitForLocked fh level = false) :
    fh.level + level ≤ LEVEL_EXCLUSIVE := by
  cases f with
  | dentry =>
    simp only [LockFunction.waitForLocked, InternalFh.shouldWaitForLocked] at h
    unfold LEVEL_SHARED LEVEL_EXCLUSIVE LEVEL_UNLOCKED at *
    split_ifs at h
    omega
  | cap =>
    exact not_lt.mp (of_decide_eq_false h)

theorem shared_of_sum {level level' k d : ℕ} {j : ι} (hwf : s.Wf) (hl : s.Levelled)
    (hlevel : level = LEVEL_SHARED ∨ level = LEVEL_EXCLUSIVE) (hsum : s.handle.level + level ≤ LEVEL_EXCLUSIVE)
    (hj : s.position j = .holding level' k d) : level = LEVEL_SHARED ∧ level' = LEVEL_SHARED := by
  have hlevel' := hl j _ _ _ hj
  have hok := hwf.position j
  rw [hj] at hok
  unfold Ok LEVEL_SHARED LEVEL_EXCLUSIVE at *
  omega

section same

variable [Fintype ι]

theorem SameLock.excludes_of (h : SameLock s s') (hx : s.Excludes) : s'.Excludes := by
  have hcount : ∀ k, count (Position.holds k) s'.position = count (Position.holds k) s.position := by
    intro k
    unfold count
    simp only [h.holds]
  have hchain : s'.chain ≠ [] ↔ s.chain ≠ [] := not_congr h.chain
  refine ⟨?_, ?_, ?_, ?_⟩
  · simpa only [h.position] using hx.exclusive
  · simpa only [h.position, h.fh, hchain] using hx.held
  · simpa only [h.users, h.fh, hchain, hcount] using hx.users
  · simpa only [h.level, h.fh, hchain, hcount] using hx.unlocked

theorem SameLock.safe {p : Prop} (h : SameLock s s') (hl : s.Levelled) (hx : s.Excludes) (hp : p) :
    (s'.Excludes ↔ p) ∧ (p → s'.Levelled) := ⟨iff_of_true (h.excludes_of hx) hp, fun _ => h.levelled hl⟩

theorem SameLock.excludes (h : SameLock s s') : s'.Excludes ↔ s.Excludes := ⟨h.symm.excludes_of, h.excludes_of⟩

theorem remove_excludes {d : ℕ} (hx : s.Excludes) (hd : d ∈ s.chain) :
    (s.remove d).Excludes ↔ (s.chain = [d] → s.handle.users = 0) := by
  have hchain : s.chain ≠ [] := List.ne_nil_of_mem hd
  by_cases hlast : s.chain = [d]
  · have hnil : (s.remove d).chain = [] := (remove_chain_eq_nil hd).mpr hlast
    have hzero : s.handle.users = 0 ↔ ∀ j, (s.position j).holds s.fh = false := by
      rw [← count_eq_zero, ← hx.users hchain]
      exact UInt32.toNat_inj.symm
    simp only [hlast, true_imp_iff, hzero]
    constructor
    · intro hx' j
      exact holds_eq_false _ fun level k d' hp => absurd hnil (hx'.held j level k d' hp).2
    · intro hnone
      refine ⟨hx.exclusive, fun j level k d' hp => ?_, fun h => absurd hnil h, fun h => absurd hnil h⟩
      have hfalse := hnone j
      change s.position j = _ at hp
      rw [hp] at hfalse
      exact absurd (hx.held j _ _ _ hp).1 (of_decide_eq_false hfalse)
  · have hsame : SameLock s (s.remove d) :=
      ⟨rfl, iff_of_false (fun h => hlast ((remove_chain_eq_nil hd).mp h)) hchain, fun _ _ _ _ => Iff.rfl, rfl, rfl⟩
    rw [hsame.excludes]
    exact iff_of_true hx fun h => absurd h hlast

theorem excludes_start : (State.start ι).Excludes where
  exclusive _ _ _ _ _ _ _ _ _ h := nomatch h
  held _ _ _ _ h := nomatch h
  users h := absurd rfl h
  unlocked h := absurd rfl h

end same

variable [DecidableEq ι]

theorem sameLock_position {p : Position} (hp : ∀ level k d, p ≠ .holding level k d)
    (hi : ∀ level k d, s.position i ≠ .holding level k d) :
    SameLock s { s with position := update s.position i p } := by
  refine ⟨rfl, Iff.rfl, fun j level k d => ?_, rfl, rfl⟩
  by_cases hj : j = i
  · subst hj
    simp only [update_self]
    exact iff_of_false (hp level k d) (hi level k d)
  · simp only [update_of_ne hj]

theorem sameLock_create {d : ℕ} {rest : List ℕ} (hchain : s.chain = d :: rest) (level parent : ℕ) (name : String) :
    SameLock s (s.create i level parent name) := by
  unfold create
  rw [hchain]
  exact ⟨rfl, iff_of_false (by simp) (by simp [hchain]), fun _ _ _ _ => Iff.rfl, rfl, rfl⟩

/-! ## The lock is taken -/

theorem acquire_levelled {level d : ℕ} (hwf : s.Wf) (hl : s.Levelled) (hd : d ∈ s.chain)
    (hlevel : level = LEVEL_SHARED ∨ level = LEVEL_EXCLUSIVE) (hsum : s.handle.level + level ≤ LEVEL_EXCLUSIVE) :
    (s.acquire i level d).Levelled := by
  intro j level' k' d' hj
  rw [handle_acquire (hwf.chain d hd).1]
  change level = level'
  by_cases hji : j = i
  · subst hji
    simp only [acquire, update_self, holding.injEq] at hj
    exact hj.1
  · simp only [acquire, update_of_ne hji] at hj
    obtain ⟨h, h'⟩ := shared_of_sum hwf hl hlevel hsum hj
    exact h.trans h'.symm

variable [Fintype ι]

theorem count_acquire {level d : ℕ} (hd : (s.dentries d).fh = s.fh) (hi : ∀ level k d, s.position i ≠ .holding level k d) :
    count (holds s.fh) (s.acquire i level d).position = count (holds s.fh) s.position + 1 := by
  have hupdate := count_update (holds s.fh) s.position i (.holding level (s.dentries d).fh d)
  have hnew : (holding level (s.dentries d).fh d).holds s.fh = true := decide_eq_true hd
  rw [hnew, holds_eq_false s.fh hi] at hupdate
  exact hupdate

/-- The lock can be taken if the levels go together and the number of users does not wrap around. -/
theorem acquire_excludes {level d : ℕ} (hwf : s.Wf) (hl : s.Levelled) (hx : s.Excludes) (hd : d ∈ s.chain)
    (hi : ∀ level k d, s.position i ≠ .holding level k d) (hlevel : level = LEVEL_SHARED ∨ level = LEVEL_EXCLUSIVE) :
    (s.acquire i level d).Excludes ↔
      s.handle.level + level ≤ LEVEL_EXCLUSIVE ∧ s.handle.users.toNat + 1 < 2 ^ 32 := by
  have hfh := (hwf.chain d hd).1
  have hchain : s.chain ≠ [] := List.ne_nil_of_mem hd
  have hhandle : (s.acquire i level d).handle = s.handle.lock level := handle_acquire hfh
  have hcount : count (holds s.fh) (s.acquire i level d).position = _ := count_acquire hfh hi
  have husers := hx.users hchain
  have hself : (s.acquire i level d).position i = .holding level s.fh d := by simp only [acquire, update_self, hfh]
  have hother : ∀ j, j ≠ i → (s.acquire i level d).position j = s.position j := fun j hj => update_of_ne hj _ _
  have hadd : (s.handle.lock level).users.toNat = (s.handle.users.toNat + 1) % 2 ^ 32 := UInt32.toNat_add _ _
  have hlt := s.handle.users.toNat_lt
  constructor
  · intro hx'
    refine ⟨?_, ?_⟩
    · -- a holder `j` and the new one have the levels of the sum
      by_contra hsum
      have hlocked : s.handle.level ≠ LEVEL_UNLOCKED := by
        unfold LEVEL_SHARED LEVEL_EXCLUSIVE LEVEL_UNLOCKED at *
        omega
      have hholders : ¬ ∀ j, (s.position j).holds s.fh = false :=
        fun h => hlocked ((hx.unlocked hchain).mpr (count_eq_zero.mpr h))
      obtain ⟨j, hj⟩ := not_forall.mp hholders
      refine hj (holds_eq_false _ fun level' k' d' hp => ?_)
      have hne : j ≠ i := by
        intro h
        subst h
        exact hi _ _ _ hp
      have hboth := hx'.exclusive i j _ _ _ _ _ _ hne.symm hself ((hother j hne).trans hp)
      have hlevel' := hl j _ _ _ hp
      unfold LEVEL_SHARED LEVEL_EXCLUSIVE at *
      omega
    · have husers' := hx'.users hchain
      rw [hhandle, hadd] at husers'
      change _ = count (holds s.fh) _ at husers'
      omega
  · rintro ⟨hsum, hwrap⟩
    refine ⟨?_, ?_, ?_, ?_⟩
    · intro j j' level1 level2 k1 k2 d1 d2 hne hj hj'
      by_cases hji : j = i
      · subst hji
        rw [hself] at hj
        rw [hother j' hne.symm] at hj'
        cases hj
        exact shared_of_sum hwf hl hlevel hsum hj'
      · rw [hother j hji] at hj
        by_cases hji' : j' = i
        · subst hji'
          rw [hself] at hj'
          cases hj'
          exact (shared_of_sum hwf hl hlevel hsum hj).symm
        · rw [hother j' hji'] at hj'
          exact hx.exclusive j j' _ _ _ _ _ _ hne hj hj'
    · intro j level' k' d' hj
      by_cases hji : j = i
      · subst hji
        rw [hself] at hj
        cases hj
        exact ⟨rfl, hchain⟩
      · rw [hother j hji] at hj
        exact hx.held j _ _ _ hj
    · intro _
      rw [hhandle, hadd]
      change _ = count (holds s.fh) _
      omega
    · intro _
      rw [hhandle]
      change level = _ ↔ count (holds s.fh) _ = 0
      unfold LEVEL_SHARED LEVEL_EXCLUSIVE LEVEL_UNLOCKED at *
      omega

/-! ## The lock is given back -/

theorem release_excludes {level k d d' : ℕ} (hwf : s.Wf) (hx : s.Excludes) (hd : d ∈ s.chain)
    (hi : s.position i = .holding level k d') : (s.release i d .outside).Excludes := by
  have hfh := (hwf.chain d hd).1
  have hchain : s.chain ≠ [] := List.ne_nil_of_mem hd
  have hhandle : (s.release i d .outside).handle = s.handle.unlock := handle_release hfh
  have hother : ∀ j level k d', (s.release i d .outside).position j = .holding level k d' →
      s.position j = .holding level k d' := by
    intro j level k d' hj
    by_cases hji : j = i
    · subst hji
      simp only [release, update_self, reduceCtorEq] at hj
    · simpa only [release, update_of_ne hji] using hj
  have hholds : (s.position i).holds s.fh = true := by
    rw [hi]
    exact decide_eq_true (hx.held i _ _ _ hi).1
  have hupdate := count_update (holds s.fh) s.position i .outside
  rw [hholds] at hupdate
  change count (holds s.fh) (s.release i d .outside).position + 1 = _ + 0 at hupdate
  have husers := hx.users hchain
  have hone : (1 : UInt32) ≤ s.handle.users := UInt32.le_iff_toNat_le.mpr (by change 1 ≤ _; omega)
  have hsub : (s.handle.users - 1).toNat = s.handle.users.toNat - 1 := UInt32.toNat_sub_of_le _ _ hone
  refine ⟨?_, ?_, ?_, ?_⟩
  · intro j j' level1 level2 k1 k2 d1 d2 hne hj hj'
    exact hx.exclusive j j' _ _ _ _ _ _ hne (hother _ _ _ _ hj) (hother _ _ _ _ hj')
  · intro j level' k' d'' hj
    exact hx.held j _ _ _ (hother _ _ _ _ hj)
  · intro _
    rw [hhandle]
    change (s.handle.users - 1).toNat = count (holds s.fh) _
    omega
  · intro _
    have hunlocked := hx.unlocked hchain
    have hzero : s.handle.users - 1 = 0 ↔ (s.handle.users - 1).toNat = 0 := UInt32.toNat_inj.symm
    rw [hhandle]
    change (if s.handle.users - 1 = 0 then LEVEL_UNLOCKED else s.handle.level) = _ ↔ count (holds s.fh) _ = 0
    split_ifs with hlast
    · simp only [true_iff]
      have := hzero.mp hlast
      omega
    · rw [hunlocked]
      have : ¬ (s.handle.users - 1).toNat = 0 := fun h => hlast (hzero.mpr h)
      omega

theorem release_levelled {level k d d' : ℕ} (hwf : s.Wf) (hl : s.Levelled) (hx : s.Excludes) (hd : d ∈ s.chain)
    (hi : s.position i = .holding level k d') : (s.release i d .outside).Levelled := by
  have hx' : (s.release i d .outside).Excludes := release_excludes hwf hx hd hi
  intro j level' k' d'' hj
  have hlocked : (s.release i d .outside).handle.level ≠ LEVEL_UNLOCKED := by
    intro hzero
    have hcount := count_eq_zero.mp ((hx'.unlocked (List.ne_nil_of_mem hd)).mp hzero) j
    rw [hj] at hcount
    exact of_decide_eq_false hcount (hx'.held j _ _ _ hj).1
  rw [handle_release (hwf.chain d hd).1] at hlocked ⊢
  have hji : j ≠ i := by
    intro h
    subst h
    simp only [release, update_self, reduceCtorEq] at hj
  simp only [release, update_of_ne hji] at hj
  simp only [InternalFh.unlock] at hlocked ⊢
  split_ifs at hlocked ⊢ with hlast
  · exact absurd rfl hlocked
  · exact hl j _ _ _ hj

theorem not_excludes_stale {d : ℕ} (hwf : s.Wf) (hx : s.Excludes) (hd : d ∈ s.chain) :
    ¬ (s.release i d (s.position i)).Excludes := by
  intro hx'
  have hchain : s.chain ≠ [] := List.ne_nil_of_mem hd
  have husers := hx'.users hchain
  rw [handle_release (hwf.chain d hd).1] at husers
  have hposition : (s.release i d (s.position i)).position = s.position := update_eq_self _ _
  rw [hposition] at husers
  change (s.handle.users - 1).toNat = count (holds s.fh) s.position at husers
  rw [← hx.users hchain, UInt32.toNat_inj] at husers
  grind

/-! ## The other steps -/

theorem create_first (hchain : s.chain = []) (hx : s.Excludes) {level : ℕ} (parent : ℕ) (name : String) :
    (s.create i level parent name).Excludes ∧ (s.create i level parent name).Levelled := by
  have hnone : ∀ j level k d, s.position j ≠ .holding level k d := fun j level k d h => (hx.held j level k d h).2 hchain
  have hfalse : ∀ j k, (s.position j).holds k = false := fun j k => holds_eq_false k (hnone j)
  have hzero : ∀ k, count (holds k) s.position = 0 := fun k => count_eq_zero.mpr fun j => hfalse j k
  unfold create
  rw [hchain]
  dsimp only
  split_ifs with hlevel
  · have hcount := count_update (holds (s.fh + 1)) s.position i (.holding level (s.fh + 1) s.ndentries)
    have hnew : (holding level (s.fh + 1) s.ndentries).holds (s.fh + 1) = true := decide_eq_true rfl
    rw [hzero, hfalse, hnew] at hcount
    change count _ _ = 1 at hcount
    -- the thread that has created the dentry is the only one that holds it
    have honly : ∀ {j level' k' d'}, update s.position i (.holding level (s.fh + 1) s.ndentries) j = .holding level' k' d' →
        j = i ∧ level = level' ∧ s.fh + 1 = k' := by
      intro j level' k' d' hj
      by_cases hji : j = i
      · subst hji
        rw [update_self] at hj
        cases hj
        exact ⟨rfl, rfl, rfl⟩
      · rw [update_of_ne hji] at hj
        exact absurd hj (hnone j _ _ _)
    refine ⟨⟨?_, ?_, ?_, ?_⟩, ?_⟩
    · intro j j' _ _ _ _ _ _ hne hj hj'
      exact absurd ((honly hj).1.trans (honly hj').1.symm) hne
    · intro j level' k' d' hj
      exact ⟨(honly hj).2.2.symm, List.cons_ne_nil _ _⟩
    · intro _
      simp only [handle, update_self]
      exact hcount.symm
    · intro _
      simp only [handle, update_self]
      exact iff_of_false hlevel (by rw [hcount]; decide)
    · intro j level' k' d' hj
      simp only [handle, update_self]
      exact (honly hj).2.1
  · refine ⟨⟨?_, ?_, ?_, ?_⟩, ?_⟩
    · intro j _ _ _ _ _ _ _ _ hj _
      exact absurd hj (hnone j _ _ _)
    · intro j level' k' d' hj
      exact absurd hj (hnone j _ _ _)
    · intro _
      simp only [handle, update_self]
      exact (hzero _).symm
    · intro _
      simp only [handle, update_self]
      exact iff_of_true (not_not.mp hlevel) (hzero _)
    · intro j level' k' d' hj
      exact absurd hj (hnone j _ _ _)

theorem lock_excludes {f : LockFunction} {level d : ℕ} (hwf : s.Wf) (hl : s.Levelled) (hx : s.Excludes) (hd : d ∈ s.chain)
    (hi : s.position i = .outside) (hlevel : level = LEVEL_SHARED ∨ level = LEVEL_EXCLUSIVE) :
    ((s.lock i f level d).Excludes ↔ f.waitForLocked s.handle level = true ∨ s.handle.users.toNat + 1 < 2 ^ 32) ∧
      (s.lock i f level d).Levelled := by
  have hfh := (hwf.chain d hd).1
  have hi' : ∀ level k d, s.position i ≠ .holding level k d := by
    intro level k d h
    rw [hi] at h
    cases h
  have hsame : SameLock s s.ticketed := sameLock_ticketed
  rw [lock_eq hfh]
  split_ifs with hwait
  · have hsame' := hsame.trans (sameLock_position (i := i) (p := .waiting f level s.fh d s.handle.id2assign)
      (fun _ _ _ h => by cases h) hi')
    exact ⟨iff_of_true (hsame'.excludes.mpr hx) (.inl hwait), hsame'.levelled hl⟩
  · have hsum := le_exclusive_of_not_wait hlevel (Bool.eq_false_iff.mpr hwait)
    have hacquire := acquire_excludes (i := i) hwf.ticketed (hsame.levelled hl) (hsame.excludes.mpr hx) hd hi' hlevel
    rw [hsame.level, hsame.users] at hacquire
    refine ⟨?_, acquire_levelled hwf.ticketed (hsame.levelled hl) hd hlevel (by rwa [hsame.level])⟩
    rw [hacquire]
    simp [hsum, hwait]

theorem release_safe {p : Prop} {level k d d' : ℕ} (hwf : s.Wf) (hl : s.Levelled) (hx : s.Excludes) (hd : d ∈ s.chain)
    (hi : s.position i = .holding level k d') (hp : p) :
    ((s.release i d .outside).Excludes ↔ p) ∧ (p → (s.release i d .outside).Levelled) :=
  ⟨iff_of_true (release_excludes hwf hx hd hi) hp, fun _ => release_levelled hwf hl hx hd hi⟩

theorem excludes_step (hwf : s.Wf) (hl : s.Levelled) (hx : s.Excludes) (hstep : s.step e = some s') :
    (s'.Excludes ↔ s.LockSafe e) ∧ (s.LockSafe e → s'.Levelled) := by
  cases outcome_of_step hstep with
  | create hpos hlevel =>
    cases hchain : s.chain with
    | nil =>
      obtain ⟨hx', hl'⟩ := create_first hchain hx _ _
      exact ⟨iff_of_true hx' trivial, fun _ => hl'⟩
    | cons d rest => exact (sameLock_create hchain _ _ _).safe hl hx trivial
  | move hd => exact (sameLock_dentries _).safe hl hx trivial
  | disownStale hd hpos =>
    have hunsafe : ¬ s.LockSafe (.disown ‹ι› ‹ℕ›) := fun ⟨level, k, hheld⟩ => by
      rcases hpos with hpos | ⟨level', k', d', hpos, hne⟩
      · rw [hpos] at hheld
        cases hheld
      · rw [hpos] at hheld
        cases hheld
        exact hne rfl
    exact ⟨iff_of_false (not_excludes_stale hwf hx hd) hunsafe, fun h => absurd h hunsafe⟩
  | disownHeld hd hpos => exact release_safe hwf hl hx hd hpos ⟨_, _, hpos⟩
  | delete hd => exact (sameLock_dentries _).safe hl hx trivial
  | remove hd => exact ⟨remove_excludes hx hd, fun _ => hl⟩
  | lock hpos hd hlevel =>
    obtain ⟨hx', hl'⟩ := lock_excludes hwf hl hx hd hpos hlevel
    exact ⟨hx', fun _ => hl'⟩
  | wake hpos =>
    refine SameLock.safe (sameLock_position (fun _ _ _ h => ?_) fun _ _ _ h => ?_) hl hx trivial
    · cases h
    · rw [hpos] at h
      cases h
  | lookupFound hpos hchain =>
    have hok := hwf.position ‹ι›
    rw [hpos] at hok
    have hd := hchain ▸ List.mem_cons_self
    rw [acquire_excludes hwf hl hx hd (fun _ _ _ h => by rw [hpos] at h; cases h) hok.1]
    simp only [LockSafe, hpos, hchain, ne_eq, reduceCtorEq, not_false_eq_true, true_imp_iff]
    exact ⟨trivial, fun hsafe => acquire_levelled hwf hl hd hok.1 hsafe.1⟩
  | lookupLost hpos hlost =>
    refine SameLock.safe (sameLock_position (fun _ _ _ h => ?_) fun _ _ _ h => ?_) hl hx ?_
    · cases h
    · rw [hpos] at h
      cases h
    · simp only [LockSafe, hpos]
      intro hfound hchain
      exact absurd (hlost hfound) hchain
  | unlock hpos hd => exact release_safe hwf hl hx hd hpos trivial

variable (ι) in
/-- In every run of any number of threads the lock excludes other threads in all states if and only if all
steps are safe. -/
theorem lock_excludes_iff (es : List (Event ι)) :
    (∀ s ∈ Runs.visited step (State.start ι) es, s.Excludes) ↔
      ∀ x ∈ Runs.taken step (State.start ι) es, x.1.LockSafe x.2 := by
  refine Runs.visited_iff_taken (I := fun s => s.Wf ∧ s.Levelled) ?_ ?_ es _ ⟨wf_start, fun _ _ _ _ h => nomatch h⟩
    excludes_start
  · intro s e s' ⟨hwf, hl⟩ hx hsafe hstep
    exact ⟨hwf.step hstep, (excludes_step hwf hl hx hstep).2 hsafe⟩
  · intro s e s' ⟨hwf, hl⟩ hx hstep
    exact (excludes_step hwf hl hx hstep).1

/-- Two threads wait for a third one; both of them leave the loop before one of them looks the handle up. -/
theorem lock_not_exclusive :
    ∃ es : List (Event (Fin 3)), ∃ s ∈ Runs.visited step (State.start (Fin 3)) es,
      s.position 1 = .holding LEVEL_EXCLUSIVE s.fh 0 ∧ s.position 2 = .holding LEVEL_EXCLUSIVE s.fh 0 ∧
        ¬ s.Excludes := by
  let es : List (Event (Fin 3)) :=
    [.create 0 LEVEL_UNLOCKED 0 "f", .lock 0 .dentry LEVEL_EXCLUSIVE 0, .lock 1 .dentry LEVEL_EXCLUSIVE 0,
      .lock 2 .dentry LEVEL_EXCLUSIVE 0, .unlock 0 0, .wake 1, .wake 2, .lookup 1 true, .lookup 2 true]
  obtain ⟨s, hrun, h1, h2⟩ : ∃ s, Runs.run step (State.start (Fin 3)) es = some s ∧
      s.position 1 = .holding LEVEL_EXCLUSIVE s.fh 0 ∧ s.position 2 = .holding LEVEL_EXCLUSIVE s.fh 0 :=
    ⟨_, rfl, rfl, rfl⟩
  refine ⟨es, s, Runs.mem_visited_of_run es hrun, h1, h2, fun hx => ?_⟩
  have hshared := hx.exclusive 1 2 _ _ _ _ _ _ (by decide) h1 h2
  exact absurd hshared.1 (by decide)

end State

end ZFS.Locking
