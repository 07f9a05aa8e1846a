import ZlomekFS.Spec.LockTwo

/-! Threads that lock two handles each, in the order of their inodes, never wait in a circle. -/

namespace ZFS.Locking.Two
open Function Two.State List

/-! ## The calls of one thread -/

def key (fh : ZfsFh) : ℕ ×ₗ ℕ := toLex (fh.ino.toNat, fh.dev.toNat)

theorem key_lt {a b : ZfsFh} : key a < key b ↔ a.ino < b.ino ∨ a.ino = b.ino ∧ a.dev < b.dev := by
  rw [UInt32.lt_iff_toNat_lt, UInt32.lt_iff_toNat_lt, ← UInt32.toNat_inj]
  exact Prod.Lex.toLex_lt_toLex

def Valid (level : ℕ) : Prop := level = LEVEL_SHARED ∨ level = LEVEL_EXCLUSIVE

namespace Task

theorem calls_sorted (t : Task) : t.calls.Pairwise fun x y => key x.1 < key y.1 := by
  unfold calls
  split_ifs with hsame hlt
  · exact pairwise_singleton _ _
  · exact pairwise_pair.mpr (key_lt.mpr hlt)
  · refine pairwise_pair.mpr (key_lt.mpr ?_)
    simp only [UInt32.lt_iff_toNat_lt, ← UInt32.toNat_inj] at *
    omega

theorem calls_length (t : Task) : t.calls.length ≤ 2 := by
  unfold calls
  split_ifs <;> simp

theorem calls_ne_nil (t : Task) : t.calls ≠ [] := by
  unfold calls
  split_ifs <;> simp

theorem calls_valid {t : Task} (h1 : Valid t.level1) (h2 : Valid t.level2) : ∀ x ∈ t.calls, Valid x.2 := by
  unfold calls
  split_ifs
  · rcases max_choice t.level1 t.level2 with h | h <;> simp [h, h1, h2]
  · simp [h1, h2]
  · simp [h1, h2]

theorem calls_perm (t : Task) : t.calls.Perm t.wanted ↔ t.Identified := by
  unfold calls wanted Identified
  by_cases heq : t.fh1 = t.fh2
  · simp only [heq, and_self, if_true, implies_true, iff_true]
    exact Perm.refl _
  · simp only [heq, if_false]
    split_ifs with hsame hlt
    · simp only [hsame, true_implies, iff_false]
      intro h
      simpa using h.length_eq
    · exact iff_of_true (Perm.refl _) fun hi hd => absurd ⟨hi, hd⟩ hsame
    · exact iff_of_true (Perm.swap ..) fun hi hd => absurd ⟨hi, hd⟩ hsame

end Task

/-! ## What a thread has locked -/

/-- The locked handles and the calls that follow are the calls of the task. -/
def Position.Ok (held : List (ZfsFh × ℕ)) : Position → Prop
  | .outside | .failed _ => held = []
  | .locking t todo => held.reverse ++ todo = t.calls ∧ todo ≠ [] ∧ ∀ x ∈ todo, Valid x.2
  | .waiting t x todo | .lookingUp t x todo => held.reverse ++ x :: todo = t.calls ∧ ∀ y ∈ x :: todo, Valid y.2
  | .out t todo => held.reverse ++ todo = t.calls ∧ todo ≠ []
  | .done t => held.reverse = t.calls
  | .releasing => True

namespace State

variable {ι : Type} {s s' : State ι} {i : ι}

structure Inv (s : State ι) : Prop where
  position : ∀ i, (s.position i).Ok (s.held i)
  valid : ∀ i, ∀ x ∈ s.held i, Valid x.2
  locked : ∀ fh, s.level fh ≠ LEVEL_UNLOCKED → ∃ i, fh ∈ (s.held i).map Prod.fst

variable {x : ZfsFh × ℕ} {todo : List (ZfsFh × ℕ)}

/-- What a thread waits for comes after everything that it has locked. -/
theorem Inv.key_lt_of_waiting (h : s.Inv) {t : Task}
    (hp : s.position i = .waiting t x todo) {fh : ZfsFh} (hfh : fh ∈ (s.held i).map Prod.fst) : key fh < key x.1 := by
  obtain ⟨y, hy, rfl⟩ := mem_map.mp hfh
  have hok := h.position i
  rw [hp] at hok
  have hsorted := t.calls_sorted
  rw [← hok.1] at hsorted
  exact (pairwise_append.mp hsorted).2.2 y (mem_reverse.mpr hy) x mem_cons_self

/-- Along a chain of threads that wait for each other the handles that they wait for come later and later. -/
theorem Inv.key_lt_of_transGen (h : s.Inv) {i j : ι} (hij : Relation.TransGen s.WaitsFor i j) :
    ∀ {t t' x x' todo todo'}, s.position i = .waiting t x todo → s.position j = .waiting t' x' todo' →
      key x.1 < key x'.1 := by
  induction hij with
  | single hw =>
    intro t t' x x' todo todo' hi hj
    obtain ⟨_, y, _, hpos, hheld⟩ := hw
    obtain ⟨rfl, rfl, rfl⟩ : _ ∧ _ ∧ _ := Position.waiting.inj (hi.symm.trans hpos)
    exact h.key_lt_of_waiting hj hheld
  | tail _ hw ih =>
    intro t t' x x' todo todo' hi hj
    obtain ⟨_, y, _, hpos, hheld⟩ := hw
    exact (ih hi hpos).trans (h.key_lt_of_waiting hj hheld)

theorem Inv.acyclic (h : s.Inv) (i : ι) : ¬ Relation.TransGen s.WaitsFor i i := by
  intro hi
  obtain ⟨j, ⟨t, x, todo, hpos, -⟩, -⟩ := Relation.TransGen.head'_iff.mp hi
  exact lt_irrefl _ (h.key_lt_of_transGen hi hpos hpos)

variable [DecidableEq ι]

theorem Inv.setPosition (h : s.Inv) {p : Position} (hp : p.Ok (s.held i)) : (s.setPosition i p).Inv := by
  refine ⟨fun j => ?_, h.valid, h.locked⟩
  by_cases hj : j = i
  · simpa [State.setPosition, hj] using hp
  · simpa [State.setPosition, hj] using h.position j

theorem Inv.acquire (h : s.Inv) {t : Task}
    (hcalls : (s.held i).reverse ++ x :: todo = t.calls) (hvalid : ∀ y ∈ x :: todo, Valid y.2) :
    (s.acquire i t x todo).Inv := by
  refine ⟨fun j => ?_, fun j => ?_, fun fh hfh => ?_⟩
  · by_cases hj : j = i
    · subst hj
      simp only [acquire, update_self]
      split_ifs with htodo
      · rw [Position.Ok, reverse_cons, ← hcalls, htodo]
      · refine ⟨?_, htodo, fun y hy => hvalid y (mem_cons_of_mem _ hy)⟩
        rw [reverse_cons, append_assoc, singleton_append, hcalls]
    · simpa only [State.acquire, update_of_ne hj] using h.position j
  · by_cases hj : j = i
    · subst hj
      simp only [acquire, update_self, forall_mem_cons]
      exact ⟨hvalid x mem_cons_self, h.valid j⟩
    · simpa only [State.acquire, update_of_ne hj] using h.valid j
  · by_cases hx : fh = x.1
    · exact ⟨i, by simp [State.acquire, hx]⟩
    · obtain ⟨j, hj⟩ := h.locked fh (by simpa only [State.acquire, update_of_ne hx] using hfh)
      refine ⟨j, ?_⟩
      by_cases hji : j = i
      · subst hji
        simp only [acquire, update_self, map_cons]
        exact mem_cons_of_mem _ hj
      · simpa only [State.acquire, update_of_ne hji] using hj

variable [Fintype ι]

theorem mem_free {fh fh' : ZfsFh} {p : Position} {j : ι} :
    fh' ∈ ((s.free i fh p).held j).map Prod.fst ↔ fh' ∈ (s.held j).map Prod.fst ∧ (j = i → fh' ≠ fh) := by
  by_cases hj : j = i
  · subst hj
    simp [free]
  · simp [free, hj]

theorem Inv.free (h : s.Inv) {fh : ZfsFh} {p : Position}
    (hp : p.Ok ((s.held i).filter fun x => x.1 ≠ fh)) : (s.free i fh p).Inv := by
  refine ⟨fun j => ?_, fun j x hx => ?_, fun fh' hfh => ?_⟩
  · by_cases hj : j = i
    · subst hj
      simpa only [free, update_self] using hp
    · simpa only [State.free, update_of_ne hj] using h.position j
  · by_cases hj : j = i
    · subst hj
      simp only [free, update_self] at hx
      exact h.valid j x (mem_of_mem_filter hx)
    · simp only [State.free, update_of_ne hj] at hx
      exact h.valid j x hx
  · simp only [mem_free]
    by_cases hother : ∃ j, j ≠ i ∧ fh ∈ (s.held j).map Prod.fst
    · simp only [State.free, if_pos hother] at hfh
      obtain ⟨j, hj⟩ := h.locked fh' hfh
      by_cases hji : j = i ∧ fh' = fh
      · obtain ⟨k, hk, hmem⟩ := hother
        exact ⟨k, hji.2 ▸ hmem, fun he => absurd he hk⟩
      · exact ⟨j, hj, fun he hfh => hji ⟨he, hfh⟩⟩
    · simp only [State.free, if_neg hother] at hfh
      by_cases he : fh' = fh
      · rw [he, update_self] at hfh
        exact absurd rfl hfh
      · rw [update_of_ne he] at hfh
        obtain ⟨j, hj⟩ := h.locked fh' hfh
        exact ⟨j, hj, fun _ => he⟩

/-- What a step does, and when it is safe: a thread goes elsewhere, locks the handle of a call, or unlocks one. -/
inductive Outcome (s : State ι) (e : Event ι) : State ι → Prop
  | move {i : ι} {p : Position} (hp : p.Ok (s.held i)) (hdone : ∀ t, p ≠ .done t) (hsafe : s.Safe e) :
    Outcome s e (s.setPosition i p)
  | acquire {i : ι} {t : Task} {x : ZfsFh × ℕ} {todo : List (ZfsFh × ℕ)}
    (hcalls : (s.held i).reverse ++ x :: todo = t.calls) (hvalid : ∀ y ∈ x :: todo, Valid y.2)
    (hsafe : s.Safe e ↔ s.level x.1 + x.2 ≤ LEVEL_EXCLUSIVE ∧ (todo = [] → t.Identified)) :
    Outcome s e (s.acquire i t x todo)
  | free {i : ι} {fh : ZfsFh} {p : Position} (hp : p.Ok ((s.held i).filter fun x => x.1 ≠ fh))
    (hdone : ∀ t, p ≠ .done t) (hsafe : s.Safe e) : Outcome s e (s.free i fh p)

theorem outcome_giveUp {e : Event ι} (hsafe : s.Safe e) {t : Task}
    (hcalls : (s.held i).reverse ++ todo = t.calls) (htodo : todo ≠ []) : s.Outcome e (s.giveUp i t todo) := by
  rw [giveUp]
  split_ifs with hnil
  · exact .move hnil (fun _ => Position.noConfusion) hsafe
  · exact .move ⟨hcalls, htodo⟩ (fun _ => Position.noConfusion) hsafe

theorem filter_of_out {t : Task} {todo rest : List (ZfsFh × ℕ)}
    (hok : (Position.out t todo).Ok (x :: rest)) : (x :: rest).filter (fun y => y.1 ≠ x.1) = [] := by
  have hlength := congrArg length hok.1
  have htodo := length_pos_iff.mpr hok.2
  have hcalls := t.calls_length
  simp only [length_append, length_reverse, length_cons] at hlength
  have hrest : rest = [] := eq_nil_of_length_eq_zero (by omega)
  simp [hrest]

theorem Inv.outcome (h : s.Inv) {e : Event ι} (hs : s.step e = some s') : s.Outcome e s' := by
  cases e with
  | call i t =>
    rw [step] at hs
    split at hs
    · next hout =>
      split_ifs at hs with hlevels
      obtain rfl := Option.some.inj hs
      have hok := h.position i
      rw [hout] at hok
      refine .move ⟨?_, t.calls_ne_nil, Task.calls_valid hlevels.1 hlevels.2⟩ (fun _ => Position.noConfusion) trivial
      rw [hok]
      rfl
    · cases hs
  | lock i found =>
    rw [step] at hs
    split at hs
    · next t x todo hpos =>
      have hok := h.position i
      rw [hpos] at hok
      split_ifs at hs with hlost hwait
      · obtain rfl := Option.some.inj hs
        have hsafe : s.Safe (.lock i found) := fun t' x' hfound => by simp [hlost] at hfound
        exact outcome_giveUp hsafe hok.1 hok.2.1
      · obtain rfl := Option.some.inj hs
        refine .move ⟨hok.1, hok.2.2⟩ (fun _ => Position.noConfusion) fun t' x' _ hp hfree => ?_
        obtain ⟨-, he⟩ := Position.locking.inj (hpos.symm.trans hp)
        exact absurd ((cons.inj he).1 ▸ hfree) hwait
      · obtain rfl := Option.some.inj hs
        have hvalid := hok.2.2 x mem_cons_self
        have hle : s.level x.1 + x.2 ≤ LEVEL_EXCLUSIVE := by
          simp only [Valid, LEVEL_SHARED, LEVEL_EXCLUSIVE, LEVEL_UNLOCKED] at hvalid hwait ⊢
          omega
        refine .acquire hok.1 hok.2.2 ⟨fun hsafe => ⟨hle, fun hnil => ?_⟩, fun hid t' x' _ hp _ => ?_⟩
        · refine hsafe t x ?_ (hnil ▸ hpos) (not_not.mp hwait)
          rw [not_and_or, not_not, Bool.not_eq_false] at hlost
          exact hlost
        · obtain ⟨rfl, he⟩ := Position.locking.inj (hpos.symm.trans hp)
          exact hid.2 (cons.inj he).2
    · cases hs
  | wake i deleted =>
    rw [step] at hs
    split at hs
    · next t x todo hpos =>
      have hok := h.position i
      rw [hpos] at hok
      split_ifs at hs
      obtain rfl := Option.some.inj hs
      exact .move hok (fun _ => Position.noConfusion) trivial
    · cases hs
  | lookup i found =>
    rw [step] at hs
    split at hs
    · next t x todo hpos =>
      have hok := h.position i
      rw [hpos] at hok
      obtain rfl := Option.some.inj hs
      cases found with
      | false =>
        have hsafe : s.Safe (.lookup i false) := trivial
        exact outcome_giveUp hsafe hok.1 (cons_ne_nil _ _)
      | true =>
        refine .acquire hok.1 hok.2 ⟨fun hsafe => hsafe t x todo hpos, fun hsafe t' x' todo' hp => ?_⟩
        obtain ⟨rfl, rfl, rfl⟩ := Position.lookingUp.inj (hpos.symm.trans hp)
        exact hsafe
    · cases hs
  | rollback i =>
    rw [step] at hs
    split at hs
    · next t todo x rest hpos hheld =>
      have hok := h.position i
      rw [hpos, hheld] at hok
      obtain rfl := Option.some.inj hs
      exact .free (hheld ▸ filter_of_out hok) (fun _ => Position.noConfusion) trivial
    · cases hs
  | unlock i fh =>
    rw [step] at hs
    split at hs
    all_goals first | cases hs | (split_ifs at hs; obtain rfl := Option.some.inj hs)
    all_goals exact .free trivial (fun _ => Position.noConfusion) trivial
  | leave i =>
    rw [step] at hs
    split at hs
    all_goals first | cases hs | (split_ifs at hs with hnil; obtain rfl := Option.some.inj hs)
    all_goals exact .move hnil (fun _ => Position.noConfusion) trivial

theorem Inv.step (h : s.Inv) {e : Event ι} (hs : s.step e = some s') : s'.Inv := by
  cases h.outcome hs with
  | move hp => exact h.setPosition hp
  | acquire hcalls hvalid => exact h.acquire hcalls hvalid
  | free hp => exact h.free hp

/-! ## What the callers get -/

/-- The parts of `Good` that do not follow from the positions. -/
structure Granted (s : State ι) : Prop where
  success : ∀ i t, s.position i = .done t → (s.held i).Perm t.wanted
  level : ∀ i, ∀ x ∈ s.held i, s.level x.1 = x.2
  shared : ∀ i j, i ≠ j → ∀ x ∈ s.held i, ∀ y ∈ s.held j, x.1 = y.1 → x.2 = LEVEL_SHARED ∧ y.2 = LEVEL_SHARED

omit [DecidableEq ι] [Fintype ι] in
theorem Inv.good_iff (h : s.Inv) : s.Good ↔ s.Granted := by
  refine ⟨fun g => ⟨g.success, g.level, g.shared⟩, fun g => ⟨g.success, fun i t hp => ?_, g.level, g.shared, h.acyclic⟩⟩
  have hok := h.position i
  rwa [hp] at hok

omit [Fintype ι] in
theorem Granted.setPosition (h : s.Granted) {p : Position} (hp : ∀ t, p ≠ .done t) : (s.setPosition i p).Granted := by
  refine ⟨fun j t hj => ?_, h.level, h.shared⟩
  by_cases hji : j = i
  · rw [State.setPosition, hji] at hj
    exact absurd ((update_self ..).symm.trans hj) (hp t)
  · exact h.success j t ((update_of_ne hji ..).symm.trans hj)

theorem Granted.free (h : s.Granted) {fh : ZfsFh} {p : Position} (hp : ∀ t, p ≠ .done t) :
    (s.free i fh p).Granted := by
  have hsub : ∀ j, ∀ x ∈ (s.free i fh p).held j, x ∈ s.held j ∧ (j = i → x.1 ≠ fh) := by
    intro j x hx
    by_cases hj : j = i
    · subst hj
      simp only [free, update_self, mem_filter, decide_eq_true_eq] at hx
      exact ⟨hx.1, fun _ => hx.2⟩
    · simp only [State.free, update_of_ne hj] at hx
      exact ⟨hx, fun he => absurd he hj⟩
  refine ⟨fun j t hj => ?_, fun j x hx => ?_, fun j k hjk x hx y hy => h.shared j k hjk x (hsub j x hx).1 y (hsub k y hy).1⟩
  · by_cases hji : j = i
    · rw [State.free, hji] at hj
      exact absurd ((update_self ..).symm.trans hj) (hp t)
    · have hd := h.success j t ((update_of_ne hji ..).symm.trans hj)
      simpa only [State.free, update_of_ne hji] using hd
  · obtain ⟨hmem, hne⟩ := hsub j x hx
    rw [← h.level j x hmem]
    simp only [State.free]
    split_ifs with hother
    · rfl
    · refine update_of_ne (fun he => ?_) ..
      by_cases hji : j = i
      · exact hne hji he
      · exact hother ⟨j, hji, he ▸ mem_map_of_mem hmem⟩

theorem not_mem_held {held : List (ZfsFh × ℕ)} {t : Task}
    (hcalls : held.reverse ++ x :: todo = t.calls) : ∀ y ∈ held, y.1 ≠ x.1 := by
  intro y hy he
  have hsorted := t.calls_sorted
  rw [← hcalls] at hsorted
  have hlt := (pairwise_append.mp hsorted).2.2 y (mem_reverse.mpr hy) x mem_cons_self
  exact lt_irrefl _ (he ▸ hlt)

omit [Fintype ι] in
theorem mem_acquire {t : Task} {x y : ZfsFh × ℕ} {j : ι} :
    y ∈ (s.acquire i t x todo).held j ↔ y ∈ s.held j ∨ j = i ∧ y = x := by
  by_cases hj : j = i
  · subst hj
    simp [acquire, or_comm]
  · simp [acquire, hj]

omit [Fintype ι] in
theorem Granted.acquire_iff (hinv : s.Inv) (h : s.Granted) {t : Task}
    (hcalls : (s.held i).reverse ++ x :: todo = t.calls) (hvalid : Valid x.2) :
    (s.acquire i t x todo).Granted ↔ s.level x.1 + x.2 ≤ LEVEL_EXCLUSIVE ∧ (todo = [] → t.Identified) := by
  have hown := not_mem_held hcalls
  have hdone : todo = [] → ((s.acquire i t x todo).held i).Perm t.calls := by
    intro hnil
    rw [← hcalls, hnil, acquire]
    simp only [update_self]
    exact (reverse_perm _).symm.trans (by rw [reverse_cons])
  -- another thread that has the handle has locked it to the level it has
  have hothers : s.level x.1 + x.2 ≤ LEVEL_EXCLUSIVE → ∀ j, ∀ y ∈ s.held j, y.1 = x.1 →
      x.2 = LEVEL_SHARED ∧ y.2 = LEVEL_SHARED := by
    intro hlevel j y hy he
    have hy' := hinv.valid j y hy
    have := h.level j y hy
    rw [he] at this
    simp only [Valid, LEVEL_SHARED, LEVEL_EXCLUSIVE] at *
    omega
  constructor
  · intro g
    refine ⟨?_, fun hnil => ?_⟩
    · by_cases hfree : s.level x.1 = LEVEL_UNLOCKED
      · simp only [Valid, LEVEL_SHARED, LEVEL_EXCLUSIVE, LEVEL_UNLOCKED] at *
        omega
      · obtain ⟨j, hj⟩ := hinv.locked x.1 hfree
        obtain ⟨y, hy, he⟩ := mem_map.mp hj
        have hji : j ≠ i := fun hji => hown y (hji ▸ hy) he
        have hshared := g.shared i j hji.symm x (mem_acquire.mpr (.inr ⟨rfl, rfl⟩)) y (mem_acquire.mpr (.inl hy)) he.symm
        rw [← he, h.level j y hy, hshared.1, hshared.2]
        exact le_rfl
    · have hpos : (s.acquire i t x todo).position i = .done t := by simp [acquire, hnil]
      exact t.calls_perm.mp ((hdone hnil).symm.trans (g.success i t hpos))
  · intro ⟨hlevel, hid⟩
    refine ⟨fun j t' hj => ?_, fun j y hy => ?_, fun j k hjk y hy z hz he => ?_⟩
    · by_cases hji : j = i
      · subst hji
        simp only [acquire, update_self] at hj
        split_ifs at hj with hnil
        obtain rfl := Position.done.inj hj
        exact (hdone hnil).trans (t.calls_perm.mpr (hid hnil))
      · simp only [acquire, update_of_ne hji] at hj ⊢
        exact h.success j t' hj
    · by_cases he : y.1 = x.1
      · simp only [acquire, he, update_self]
        rcases mem_acquire.mp hy with hy | ⟨-, rfl⟩
        · have := hothers hlevel j y hy he
          rw [this.1, this.2]
        · rfl
      · simp only [acquire, update_of_ne he]
        rcases mem_acquire.mp hy with hy | ⟨-, rfl⟩
        · exact h.level j y hy
        · exact absurd rfl he
    · rcases mem_acquire.mp hy with hy | ⟨rfl, rfl⟩
      · rcases mem_acquire.mp hz with hz | ⟨rfl, rfl⟩
        · exact h.shared j k hjk y hy z hz he
        · exact (hothers hlevel j y (by assumption) he).symm
      · rcases mem_acquire.mp hz with hz | ⟨rfl, rfl⟩
        · exact hothers hlevel k z hz he.symm
        · exact absurd rfl hjk

theorem granted_step (hinv : s.Inv) (h : s.Granted) {e : Event ι} (hs : s.step e = some s') :
    s'.Granted ↔ s.Safe e := by
  cases hinv.outcome hs with
  | move _ hdone hsafe => exact iff_of_true (h.setPosition hdone) hsafe
  | acquire hcalls hvalid hsafe => exact (h.acquire_iff hinv hcalls (hvalid _ mem_cons_self)).trans hsafe.symm
  | free _ hdone hsafe => exact iff_of_true (h.free hdone) hsafe

omit [DecidableEq ι] [Fintype ι] in
theorem inv_start : (start : State ι).Inv :=
  ⟨fun _ => rfl, fun _ _ h => absurd h not_mem_nil, fun _ h => absurd rfl h⟩

end State

/-- Every caller gets the two handles at the levels it has asked for, or none, in all states of a run, if and only if
no two handles of one inode are locked as one and no thread that has waited locks a handle that was locked meanwhile.
Nobody waits in a circle. -/
theorem lock2_iff {ι : Type} [DecidableEq ι] [Fintype ι] (es : List (Event ι)) :
    (∀ x ∈ Runs.visited step start es, x.Good) ↔
      ∀ x ∈ Runs.taken step start es, x.1.Safe x.2 := by
  refine Runs.visited_iff_taken (I := Inv) (fun s e s' h _ _ hs => h.step hs) (fun s e s' hinv h hs => ?_) es _
    inv_start (inv_start.good_iff.mpr ⟨fun _ _ h => Position.noConfusion h, ?_, ?_⟩)
  · rw [(hinv.step hs).good_iff]
    exact granted_step hinv (hinv.good_iff.mp h) hs
  · exact fun _ _ h => absurd h not_mem_nil
  · exact fun _ _ _ _ h => absurd h not_mem_nil

/-- The directory of inode 5 was removed and the inode was used again for another directory. -/
def reused : Task := ⟨⟨1, 1, 8, 5, 1⟩, ⟨1, 1, 8, 5, 2⟩, LEVEL_EXCLUSIVE, LEVEL_EXCLUSIVE⟩

theorem reused_wrong : ¬ ∀ x ∈ Runs.visited step (start : State Unit) [.call () reused, .lock () true],
    x.Good := by
  intro h
  have hrun : (Runs.run step (start : State Unit) [.call () reused, .lock () true]).map (fun s =>
      (s.held (), s.position ())) = some ([(reused.fh1, LEVEL_EXCLUSIVE)], .done reused) := by rfl
  obtain ⟨s, hs, heq⟩ := Option.map_eq_some_iff.mp hrun
  obtain ⟨hheld, hpos⟩ := Prod.mk.inj heq
  have hperm := (h s (Runs.mem_visited_of_run _ hs)).success () reused hpos
  rw [hheld] at hperm
  exact absurd hperm.length_eq (by decide)

end ZFS.Locking.Two
