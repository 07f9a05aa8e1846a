import ZlomekFS.Proofs.HandleLock

/-! The tickets of a file handle: `id2run` catches up with `id2assign` as long as every thread with a ticket locks
the handle in its turn. -/

namespace ZFS.Locking
open Function Threads Position

/-! ## Differences of tickets -/

theorem sub_add_one_toNat {id run : UInt32} (h : id ≠ run) : (id - (run + 1)).toNat + 1 = (id - run).toNat := by
  have hpos : 0 < (id - run).toNat := by
    by_contra hzero
    have : id - run = 0 := UInt32.toNat_inj.mp (by change _ = 0; omega)
    grind
  have hone : (1 : UInt32) ≤ id - run := UInt32.le_iff_toNat_le.mpr hpos
  have hsub : (id - run - 1).toNat = (id - run).toNat - 1 := UInt32.toNat_sub_of_le _ _ hone
  have heq : id - (run + 1) = id - run - 1 := by grind
  rw [heq, hsub]
  omega

theorem self_sub_add_one_toNat (run : UInt32) : (run - (run + 1)).toNat + 1 = 2 ^ 32 := by
  have heq : run - (run + 1) = -1 := by grind
  rw [heq]
  decide

theorem add_one_sub_add_one (assign run : UInt32) : assign + 1 - (run + 1) = assign - run := by grind

theorem add_one_sub_toNat (assign run : UInt32) : (assign + 1 - run).toNat = ((assign - run).toNat + 1) % 2 ^ 32 := by
  have heq : assign + 1 - run = assign - run + 1 := by grind
  rw [heq]
  exact UInt32.toNat_add _ _

namespace State

variable {ι : Type} {s s' : State ι} {i : ι} {e : Event ι}

/-- `id2run` is incremented: the turn of the others is still to come, unless it was the turn of one of them. -/
theorem turn_advance {D D' : ℕ} {run : UInt32} (hturn : ∀ j id, s.AwaitsTurn j id → (id - run).toNat < D)
    (hD : D ≤ D' + 1) (hD' : D' < 2 ^ 32) :
    (∀ j id, s.AwaitsTurn j id → (id - (run + 1)).toNat < D') ↔ ∀ j, ¬ s.AwaitsTurn j run := by
  refine ⟨fun h j hj => ?_, fun h j id hj => ?_⟩
  · have hlt := h j run hj
    have hself := self_sub_add_one_toNat run
    omega
  · have hne : id ≠ run := by
      intro heq
      subst heq
      exact h j hj
    have hsub := sub_add_one_toNat hne
    have hlt := hturn j id hj
    omega

/-- No ticket is taken or used, and no thread begins to wait for its turn. -/
structure SameTickets (s s' : State ι) : Prop where
  fh : s'.fh = s.fh
  chain : s'.chain ≠ [] → s.chain ≠ []
  id2assign : s'.handle.id2assign = s.handle.id2assign
  id2run : s'.handle.id2run = s.handle.id2run
  pending : ∀ i, (s'.position i).pending s.fh = (s.position i).pending s.fh
  awaits : ∀ i id, s'.AwaitsTurn i id → s.AwaitsTurn i id

section threads

variable [Fintype ι]

theorem inTurn_of (hpending : s.chain ≠ [] →
      (s.handle.id2assign - s.handle.id2run).toNat = count (pending s.fh) s.position)
    (hturn : s.chain ≠ [] → ∀ j id, s.AwaitsTurn j id →
      (id - s.handle.id2run).toNat < (s.handle.id2assign - s.handle.id2run).toNat) : s.InTurn := by
  refine ⟨hpending, hturn, fun hchain hnone => ?_⟩
  have hzero := hpending hchain
  rw [count_eq_zero.mpr hnone] at hzero
  have hsub : s.handle.id2assign - s.handle.id2run = 0 := UInt32.toNat_inj.mp hzero
  grind

theorem SameTickets.inTurn (h : SameTickets s s') (ht : s.InTurn) : s'.InTurn := by
  refine inTurn_of (fun hchain => ?_) fun hchain j id hj => ?_
  · have hcount : count (Position.pending s.fh) s'.position = count (Position.pending s.fh) s.position := by
      unfold count
      simp only [h.pending]
    rw [h.id2assign, h.id2run, h.fh, hcount]
    exact ht.pending (h.chain hchain)
  · rw [h.id2assign, h.id2run]
    exact ht.turn (h.chain hchain) j id (h.awaits j id hj)

theorem inTurn_of_fresh (hid : s.handle.id2assign = s.handle.id2run) (hnone : ∀ j, (s.position j).pending s.fh = false) :
    s.InTurn := by
  refine inTurn_of (fun _ => ?_) fun _ j id ⟨level, d, hpos, _⟩ => ?_
  · rw [hid, UInt32.sub_self, count_eq_zero.mpr hnone]
    rfl
  · have hfalse := hnone j
    rw [hpos] at hfalse
    exact absurd rfl (of_decide_eq_false hfalse)

theorem inTurn_start : (State.start ι).InTurn :=
  ⟨fun h => absurd rfl h, fun h => absurd rfl h, fun h => absurd rfl h⟩

end threads

/-! ## Changes of the dentries and of a position -/

theorem AwaitsTurn.of {j : ι} {id : UInt32} (h : s'.AwaitsTurn j id) (hfh : s'.fh = s.fh)
    (hposition : ∀ {level k d}, s'.position j = .waiting .cap level k d id → s.position j = .waiting .cap level k d id)
    (hdeleted : ∀ {d}, (s'.dentries d).deleted = false → (s.dentries d).deleted = false) : s.AwaitsTurn j id := by
  obtain ⟨level, d, hpos, hdel⟩ := h
  exact ⟨level, d, by rw [← hfh]; exact hposition hpos, hdeleted hdel⟩

theorem deleted_of_update {d d' : ℕ} {dentry : InternalDentry} (hd : dentry.deleted = false → (s.dentries d).deleted = false)
    (h : (update s.dentries d dentry d').deleted = false) : (s.dentries d').deleted = false := by
  by_cases hd' : d' = d
  · subst hd'
    rw [update_self] at h
    exact hd h
  · rwa [update_of_ne hd'] at h

theorem sameTickets_dentry {d : ℕ} {dentry : InternalDentry} (hd : dentry.deleted = false → (s.dentries d).deleted = false) :
    SameTickets s { s with dentries := update s.dentries d dentry } :=
  ⟨rfl, fun h => h, rfl, rfl, fun _ => rfl, fun _ _ h => h.of rfl (fun hp => hp) (deleted_of_update hd)⟩

variable [DecidableEq ι]

theorem waiting_of_update {p : Position} {j : ι} {level k d : ℕ} {id : UInt32} (hp : p ≠ .waiting .cap level k d id)
    (h : update s.position i p j = .waiting .cap level k d id) : s.position j = .waiting .cap level k d id := by
  by_cases hj : j = i
  · subst hj
    rw [update_self] at h
    exact absurd h hp
  · rwa [update_of_ne hj] at h

theorem pending_position {p : Position} {k : ℕ} (hp : p.pending k = (s.position i).pending k) (j : ι) :
    (update s.position i p j).pending k = (s.position j).pending k := by
  by_cases hj : j = i
  · subst hj
    rw [update_self, hp]
  · rw [update_of_ne hj]

theorem awaitsTurn_acquire {level d : ℕ} (hi : ∀ level k d id, s.position i ≠ .waiting .cap level k d id) (j : ι) (id : UInt32) :
    (s.acquire i level d).AwaitsTurn j id ↔ s.AwaitsTurn j id := by
  have hdeleted : ∀ d', ((s.acquire i level d).dentries d').deleted = (s.dentries d').deleted := by
    intro d'
    by_cases hd' : d' = d
    · subst hd'
      simp only [acquire, update_self]
    · simp only [acquire, update_of_ne hd']
  by_cases hj : j = i
  · subst hj
    refine iff_of_false ?_ ?_
    · rintro ⟨level', d', hpos, _⟩
      simp only [acquire, update_self, reduceCtorEq] at hpos
    · rintro ⟨level', d', hpos, _⟩
      exact hi _ _ _ _ hpos
  · simp only [AwaitsTurn, hdeleted]
    simp only [acquire, update_of_ne hj]

theorem sameTickets_position {p : Position} (hp : p.pending s.fh = (s.position i).pending s.fh)
    (hwait : ∀ level k d id, p ≠ .waiting .cap level k d id) :
    SameTickets s { s with position := update s.position i p } :=
  ⟨rfl, fun h => h, rfl, rfl, pending_position hp,
    fun _ _ h => h.of rfl (waiting_of_update (hwait _ _ _ _)) fun hdel => hdel⟩

theorem sameTickets_release {d : ℕ} {p : Position} (hd : (s.dentries d).fh = s.fh)
    (hp : p.pending s.fh = (s.position i).pending s.fh) (hwait : ∀ level k d id, p ≠ .waiting .cap level k d id) :
    SameTickets s (s.release i d p) := by
  have hhandle : (s.release i d p).handle = s.handle.unlock := handle_release hd
  exact ⟨rfl, id, by rw [hhandle]; rfl, by rw [hhandle]; rfl, pending_position hp,
    fun j id hj => hj.of rfl (waiting_of_update (hwait _ _ _ _)) (deleted_of_update fun h => h)⟩

variable [Fintype ι]

theorem acquire_inTurn {f : LockFunction} {level level' k d : ℕ} {id : UInt32} (hwf : s.Wf) (ht : s.InTurn)
    (hd : d ∈ s.chain) (hi : s.position i = .lookingUp f level' k id) :
    (s.acquire i level d).InTurn ↔ k = s.fh ∧ ∀ j, ¬ s.AwaitsTurn j s.handle.id2run := by
  have hchain : s.chain ≠ [] := List.ne_nil_of_mem hd
  have hhandle : (s.acquire i level d).handle = s.handle.lock level := handle_acquire (hwf.chain d hd).1
  have hawaits : ∀ j id, (s.acquire i level d).AwaitsTurn j id ↔ s.AwaitsTurn j id :=
    awaitsTurn_acquire fun _ _ _ _ h => by rw [hi] at h; cases h
  have hcount := count_update (pending s.fh) s.position i (.holding level (s.dentries d).fh d)
  rw [hi] at hcount
  change count (pending s.fh) (s.acquire i level d).position + (decide (k = s.fh)).toNat = _ + 0 at hcount
  have hpending := ht.pending hchain
  have hturn := ht.turn hchain
  have hlt := (s.handle.id2assign - (s.handle.id2run + 1)).toNat_lt
  constructor
  · intro ht'
    have hpending' := ht'.pending hchain
    have hturn' := ht'.turn hchain
    simp only [hhandle, hawaits] at hpending' hturn'
    change (s.handle.id2assign - (s.handle.id2run + 1)).toNat = count (pending s.fh) _ at hpending'
    have hk : k = s.fh := by
      by_contra hk
      rw [decide_eq_false hk] at hcount
      by_cases heq : s.handle.id2assign = s.handle.id2run
      · rw [heq] at hpending hpending'
        have hself := self_sub_add_one_toNat s.handle.id2run
        rw [UInt32.sub_self] at hpending
        change 0 = _ at hpending
        change _ + 0 = _ at hcount
        omega
      · have hsub := sub_add_one_toNat heq
        change _ + 0 = _ at hcount
        omega
    rw [decide_eq_true hk] at hcount
    change _ + 1 = _ at hcount
    exact ⟨hk, (turn_advance hturn (by omega) hlt).mp hturn'⟩
  · intro ⟨hk, hnext⟩
    rw [decide_eq_true hk] at hcount
    change _ + 1 = _ at hcount
    have hne : s.handle.id2assign ≠ s.handle.id2run := by
      intro heq
      rw [heq, UInt32.sub_self] at hpending
      change 0 = _ at hpending
      omega
    have hsub := sub_add_one_toNat hne
    refine inTurn_of (fun _ => ?_) fun _ => ?_
    · rw [hhandle]
      change (s.handle.id2assign - (s.handle.id2run + 1)).toNat = count (pending s.fh) _
      omega
    · simp only [hhandle, hawaits]
      exact (turn_advance hturn (by omega) hlt).mpr hnext

/-! ## Taking a ticket -/

theorem wait_inTurn {f : LockFunction} {level d : ℕ} (ht : s.InTurn) (hchain : s.chain ≠ []) (hi : s.position i = .outside) :
    { s.ticketed with position := update s.position i (.waiting f level s.fh d s.handle.id2assign) }.InTurn ↔
      (s.handle.id2assign - s.handle.id2run).toNat + 1 < 2 ^ 32 := by
  have hpending := ht.pending hchain
  have hlt := (s.handle.id2assign - s.handle.id2run).toNat_lt
  have hcount := count_update (pending s.fh) s.position i (.waiting f level s.fh d s.handle.id2assign)
  have hnew : (waiting f level s.fh d s.handle.id2assign).pending s.fh = true := decide_eq_true rfl
  rw [hi, hnew] at hcount
  change _ + 0 = _ + 1 at hcount
  have hticket := add_one_sub_toNat s.handle.id2assign s.handle.id2run
  constructor
  · intro ht'
    have hpending' := ht'.pending hchain
    change (s.ticketed.handle.id2assign - s.ticketed.handle.id2run).toNat = _ at hpending'
    rw [handle_ticketed, hticket] at hpending'
    change _ = count (pending s.fh) (update s.position i _) at hpending'
    omega
  · intro hwrap
    refine inTurn_of (fun _ => ?_) fun _ j id hj => ?_
    · change (s.ticketed.handle.id2assign - s.ticketed.handle.id2run).toNat =
        count (pending s.fh) (update s.position i _)
      rw [handle_ticketed, hticket]
      omega
    · change (id - s.ticketed.handle.id2run).toNat < (s.ticketed.handle.id2assign - s.ticketed.handle.id2run).toNat
      rw [handle_ticketed, hticket]
      change (id - s.handle.id2run).toNat < _
      obtain ⟨level', d', hpos, hdel⟩ := hj
      by_cases hji : j = i
      · subst hji
        simp only [update_self, waiting.injEq] at hpos
        rw [← hpos.2.2.2.2]
        omega
      · simp only [update_of_ne hji] at hpos
        have := ht.turn hchain j id ⟨level', d', hpos, hdel⟩
        omega

theorem enter_inTurn {level d : ℕ} (ht : s.InTurn) (hfh : (s.dentries d).fh = s.fh) (hchain : s.chain ≠ [])
    (hi : s.position i = .outside) :
    (s.ticketed.acquire i level d).InTurn ↔ ∀ j, ¬ s.AwaitsTurn j s.handle.id2run := by
  have hhandle : (s.ticketed.acquire i level d).handle = s.ticketed.handle.lock level := handle_acquire hfh
  have hi' : ∀ level k d id, s.ticketed.position i ≠ .waiting .cap level k d id := by
    intro level k d id h
    change s.position i = _ at h
    rw [hi] at h
    cases h
  have hawaits : ∀ j id, (s.ticketed.acquire i level d).AwaitsTurn j id ↔ s.AwaitsTurn j id := awaitsTurn_acquire hi'
  have hcount := count_update (pending s.fh) s.position i (.holding level (s.dentries d).fh d)
  rw [hi] at hcount
  change count (pending s.fh) (s.ticketed.acquire i level d).position = count _ _ at hcount
  have hsub := add_one_sub_add_one s.handle.id2assign s.handle.id2run
  have hlt := (s.handle.id2assign - s.handle.id2run).toNat_lt
  have hnext : _ ↔ ∀ j, ¬ s.AwaitsTurn j s.handle.id2run := turn_advance (ht.turn hchain) (Nat.le_succ _) hlt
  constructor
  · intro ht'
    have hturn' := ht'.turn hchain
    simp only [hhandle, handle_ticketed, hawaits, InternalFh.lock, hsub] at hturn'
    exact hnext.mp hturn'
  · intro hnone
    refine inTurn_of (fun _ => ?_) fun _ => ?_
    · simp only [hhandle, handle_ticketed, InternalFh.lock, hsub]
      exact (ht.pending hchain).trans hcount.symm
    · simp only [hhandle, handle_ticketed, hawaits, InternalFh.lock, hsub]
      exact hnext.mpr hnone

/-! ## The other steps -/

theorem create_inTurn (hwf : s.Wf) (ht : s.InTurn) (level parent : ℕ) (name : String) :
    (s.create i level parent name).InTurn := by
  have hnew : ∀ j, (s.position j).pending (s.fh + 1) = false := by
    intro j
    have hok := hwf.position j
    cases hp : s.position j with
    | outside | holding => rfl
    | waiting f level k d id =>
      rw [hp] at hok
      exact decide_eq_false (Nat.ne_of_lt (Nat.lt_succ_of_le hok.2.1))
    | lookingUp f level k id =>
      rw [hp] at hok
      exact decide_eq_false (Nat.ne_of_lt (Nat.lt_succ_of_le hok.2))
  unfold create
  split
  · dsimp only
    split_ifs
    · refine inTurn_of_fresh (by simp only [handle, update_self]) fun j => ?_
      by_cases hj : j = i
      · subst hj
        simp only [update_self, pending]
      · simp only [update_of_ne hj]
        exact hnew j
    · exact inTurn_of_fresh (by simp only [handle, update_self]) hnew
  · rename_i old rest hchain
    refine SameTickets.inTurn (s := s) ⟨rfl, fun _ => by rw [hchain]; exact List.cons_ne_nil _ _, rfl, rfl, fun _ => rfl, ?_⟩ ht
    rintro j id ⟨level', d', hpos, hdel⟩
    -- the dentry of a thread that waits is not the new one
    have hok := hwf.position j
    rw [show s.position j = _ from hpos] at hok
    simp only [update_of_ne hok.2.2.ne] at hdel
    exact ⟨level', d', hpos, hdel⟩

theorem leave_inTurn {found : Bool} {f : LockFunction} {level k : ℕ} {id : UInt32} (ht : s.InTurn)
    (hi : s.position i = .lookingUp f level k id) (hlost : found = true → s.chain = []) :
    { s with position := update s.position i .outside }.InTurn ↔ s.TicketSafe (.lookup i found) := by
  simp only [TicketSafe, hi]
  by_cases hchain : s.chain = []
  · exact iff_of_true ⟨fun h => absurd hchain h, fun h => absurd hchain h, fun h => absurd hchain h⟩
      fun h => absurd hchain h
  have hfound : found = false := Bool.eq_false_iff.mpr fun h => hchain (hlost h)
  simp only [hfound, ne_eq, hchain, not_false_eq_true, true_imp_iff, Bool.false_eq_true, if_false]
  by_cases hk : k = s.fh
  · refine iff_of_false (fun ht' => ?_) fun h => h hk
    have hcount := count_update (pending s.fh) s.position i .outside
    have hold : (lookingUp f level k id).pending s.fh = true := decide_eq_true hk
    rw [hi, hold] at hcount
    change _ + 1 = _ + 0 at hcount
    have hpending := ht.pending hchain
    have hpending' := ht'.pending hchain
    change (s.handle.id2assign - s.handle.id2run).toNat = count (pending s.fh) (update s.position i _) at hpending'
    omega
  · refine iff_of_true ((sameTickets_position ?_ fun _ _ _ _ h => by cases h).inTurn ht) hk
    rw [hi]
    exact (decide_eq_false hk).symm

theorem inTurn_step (hwf : s.Wf) (ht : s.InTurn) (hstep : s.step e = some s') : s'.InTurn ↔ s.TicketSafe e := by
  cases outcome_of_step hstep with
  | create hpos hlevel => exact iff_of_true (create_inTurn hwf ht _ _ _) trivial
  | move hd =>
    refine iff_of_true (SameTickets.inTurn (sameTickets_dentry ?_) ht) trivial
    exact fun h => h
  | disownStale hd hpos =>
    refine iff_of_true ((sameTickets_release (hwf.chain _ hd).1 rfl fun _ _ _ _ h => ?_).inTurn ht) trivial
    rcases hpos with hpos | ⟨level', k', d', hpos, -⟩
    · rw [hpos] at h
      cases h
    · rw [hpos] at h
      cases h
  | disownHeld hd hpos =>
    refine iff_of_true ((sameTickets_release (hwf.chain _ hd).1 ?_ fun _ _ _ _ h => by cases h).inTurn ht) trivial
    rw [hpos]
    rfl
  | delete hd => exact iff_of_true ((sameTickets_dentry fun h => by cases h).inTurn ht) trivial
  | remove hd =>
    refine iff_of_true (SameTickets.inTurn (s := s) ⟨rfl, fun _ => ?_, rfl, rfl, fun _ => rfl, fun _ _ h => h⟩ ht) trivial
    exact List.ne_nil_of_mem hd
  | lock hpos hd hlevel =>
    have hfh := (hwf.chain _ hd).1
    have hchain := List.ne_nil_of_mem hd
    rw [lock_eq hfh, TicketSafe]
    split_ifs with hwait
    · exact wait_inTurn ht hchain hpos
    · exact enter_inTurn ht hfh hchain hpos
  | wake hpos =>
    refine iff_of_true ((sameTickets_position ?_ fun _ _ _ _ h => by cases h).inTurn ht) trivial
    rw [hpos]
    rfl
  | lookupFound hpos hchain =>
    rw [acquire_inTurn hwf ht (hchain ▸ List.mem_cons_self) hpos]
    simp only [TicketSafe, hpos, hchain, ne_eq, reduceCtorEq, not_false_eq_true, true_imp_iff, if_true]
  | lookupLost hpos hlost => exact leave_inTurn ht hpos hlost
  | unlock hpos hd =>
    refine iff_of_true ((sameTickets_release (hwf.chain _ hd).1 ?_ fun _ _ _ _ h => by cases h).inTurn ht) trivial
    rw [hpos]
    rfl

variable (ι) in
/-- In every run of any number of threads no ticket is lost and no turn is passed over if and only if all steps
are safe. -/
theorem tickets_iff (es : List (Event ι)) :
    (∀ s ∈ Runs.visited step (State.start ι) es, s.InTurn) ↔
      ∀ x ∈ Runs.taken step (State.start ι) es, x.1.TicketSafe x.2 := by
  refine Runs.visited_iff_taken (I := Wf) ?_ ?_ es _ wf_start inTurn_start
  · intro s e s' hwf _ _ hstep
    exact hwf.step hstep
  · intro s e s' hwf ht hstep
    exact inTurn_step hwf ht hstep

/-- Thread 1 waits for its turn, ticket 1. Thread 2 comes when the handle is unlocked and need not wait: `id2run`
is 2 then, and thread 1 waits for ever. -/
theorem tickets_turn_passed :
    ∃ es : List (Event (Fin 3)), ∃ s ∈ Runs.visited step (State.start (Fin 3)) es,
      s.AwaitsTurn 1 1 ∧ s.handle.id2run = 2 ∧ s.handle.id2assign = 3 ∧ s.handle.level = LEVEL_UNLOCKED ∧
        ¬ s.InTurn := by
  let es : List (Event (Fin 3)) :=
    [.create 0 LEVEL_UNLOCKED 0 "f", .lock 0 .cap LEVEL_EXCLUSIVE 0, .lock 1 .cap LEVEL_SHARED 0, .unlock 0 0,
      .lock 2 .cap LEVEL_SHARED 0, .unlock 2 0]
  obtain ⟨s, hrun, hchain, hawaits, hid2run, hid2assign, hlevel⟩ :
      ∃ s, Runs.run step (State.start (Fin 3)) es = some s ∧ s.chain ≠ [] ∧ s.AwaitsTurn 1 1 ∧ s.handle.id2run = 2 ∧
        s.handle.id2assign = 3 ∧ s.handle.level = LEVEL_UNLOCKED :=
    ⟨_, rfl, List.cons_ne_nil _ _, ⟨_, _, rfl, rfl⟩, rfl, rfl, rfl⟩
  refine ⟨es, s, Runs.mem_visited_of_run es hrun, hawaits, hid2run, hid2assign, hlevel, fun ht => ?_⟩
  have hturn := ht.turn hchain 1 1 hawaits
  rw [hid2run, hid2assign] at hturn
  exact absurd hturn (by decide)

end State

end ZFS.Locking
