import ZlomekFS.Spec.Requests

/-! Each request is answered once: what removes an entry from the table of a connection wakes the thread up, and
only that does. A request ID that is still in use is the only thing that breaks it. -/

namespace ZFS.Requests
open Protocol Function Threads Thread State

namespace State

variable {ι : Type} {s s' : State ι} {fd : ℕ} {wd : Waiting4reply ι}

/-- The tables and the heaps have the same entries, one for each request ID, of threads that wait. -/
structure Inv (s : State ι) : Prop where
  ids : ∀ fd, ((s.fds fd).waiting4reply.map (·.requestId)).Nodup
  perm : ∀ fd, (s.fds fd).waiting4reply.Perm (s.fds fd).waiting4replyHeap
  entry : ∀ fd, ∀ wd ∈ (s.fds fd).waiting4reply, ∃ slow, (s.threads wd.t).position = .waiting fd wd.requestId slow
  retval : ∀ fd, ∀ wd ∈ (s.fds fd).waiting4reply, (s.threads wd.t).retval = ZFS_OK
  closed : ∀ fd, (s.fds fd).isActive = false → (s.fds fd).waiting4reply = []

theorem Inv.eq_of_requestId (h : s.Inv) {x : Waiting4reply ι} (hwd : wd ∈ (s.fds fd).waiting4reply)
    (hx : x ∈ (s.fds fd).waiting4reply) (hid : x.requestId = wd.requestId) : x = wd :=
  List.inj_on_of_nodup_map (h.ids fd) hx hwd hid

theorem Inv.eq_of_thread (h : s.Inv) {fd' : ℕ} {x : Waiting4reply ι} (hwd : wd ∈ (s.fds fd).waiting4reply)
    (hx : x ∈ (s.fds fd').waiting4reply) (ht : x.t = wd.t) : fd' = fd ∧ x = wd := by
  obtain ⟨slow, hpos⟩ := h.entry fd wd hwd
  obtain ⟨slow', hpos'⟩ := h.entry fd' x hx
  rw [ht, hpos, Position.waiting.injEq] at hpos'
  obtain ⟨rfl, hid, -⟩ := hpos'
  exact ⟨rfl, h.eq_of_requestId hwd hx hid.symm⟩

theorem Inv.heap_eq_nil (h : s.Inv) (htable : (s.fds fd).waiting4reply = []) : (s.fds fd).waiting4replyHeap = [] := by
  have hperm := h.perm fd
  rw [htable] at hperm
  exact List.nil_perm.mp hperm

theorem mem_insert (data : FdData ι) (wd x : Waiting4reply ι) :
    x ∈ (data.insert wd).waiting4reply ↔ x = wd ∨ x ∈ data.waiting4reply ∧ x.requestId ≠ wd.requestId := by
  simp [FdData.insert]

theorem insert_table {data : FdData ι} (hfree : ∀ x ∈ data.waiting4reply, x.requestId ≠ wd.requestId) :
    (data.insert wd).waiting4reply = wd :: data.waiting4reply := by
  rw [FdData.insert, List.filter_eq_self.mpr fun x hx => decide_eq_true (hfree x hx)]

theorem decodeReply_same (t : Thread) : (decodeReply t).position = t.position ∧ (decodeReply t).sem = t.sem := by
  unfold decodeReply
  split
  · split_ifs
    · exact ⟨rfl, rfl⟩
    · split
      · exact ⟨rfl, rfl⟩
      · exact ⟨rfl, rfl⟩
    · exact ⟨rfl, rfl⟩
  · exact ⟨rfl, rfl⟩

section sent

variable {b : Bool} {t : Thread}

/-- A request with a free ID was registered, and the thread waits. -/
structure Sent (s s' : State ι) (fd : ℕ) (wd : Waiting4reply ι) (t : Thread) : Prop where
  table : (s'.fds fd).waiting4reply = wd :: (s.fds fd).waiting4reply
  heap : (s'.fds fd).waiting4replyHeap = wd :: (s.fds fd).waiting4replyHeap
  isActive : (s'.fds fd).isActive = true
  fds : ∀ fd', fd' ≠ fd → s'.fds fd' = s.fds fd'
  self : s'.threads wd.t = t
  threads : ∀ j, j ≠ wd.t → s'.threads j = s.threads j

theorem Sent.mem (hs : Sent s s' fd wd t) (fd' : ℕ) (x : Waiting4reply ι) :
    x ∈ (s'.fds fd').waiting4reply ↔ x ∈ (s.fds fd').waiting4reply ∨ fd' = fd ∧ x = wd := by
  by_cases hfd : fd' = fd
  · subst hfd
    rw [hs.table, List.mem_cons]
    simp [or_comm]
  · rw [hs.fds fd' hfd]
    simp [hfd]

theorem Sent.registered (hs : Sent s s' fd wd t) {j : ι} (hj : j ≠ wd.t) : s'.Registered j → s.Registered j := by
  intro ⟨fd', x, hx, ht⟩
  rcases (hs.mem fd' x).mp hx with hx | ⟨-, rfl⟩
  · exact ⟨fd', x, hx, ht⟩
  · exact absurd ht.symm hj

theorem Sent.inv (hs : Sent s s' fd wd t) (h : s.Inv) (hnot : ¬ s.Registered wd.t)
    (hfree : ∀ x ∈ (s.fds fd).waiting4reply, x.requestId ≠ wd.requestId)
    (hposition : t.position = .waiting fd wd.requestId b) (hretval : t.retval = ZFS_OK) : s'.Inv := by
  refine ⟨fun fd' => ?_, fun fd' => ?_, fun fd' x hx => ?_, fun fd' x hx => ?_, fun fd' hclosed => ?_⟩
  · by_cases hfd : fd' = fd
    · subst hfd
      rw [hs.table, List.map_cons, List.nodup_cons]
      refine ⟨fun hmem => ?_, h.ids fd'⟩
      obtain ⟨x, hx, hid⟩ := List.mem_map.mp hmem
      exact hfree x hx hid
    · rw [hs.fds fd' hfd]
      exact h.ids fd'
  · by_cases hfd : fd' = fd
    · subst hfd
      rw [hs.table, hs.heap]
      exact (h.perm fd').cons _
    · rw [hs.fds fd' hfd]
      exact h.perm fd'
  · rcases (hs.mem fd' x).mp hx with hx | ⟨rfl, rfl⟩
    · rw [hs.threads x.t fun ht => hnot ⟨fd', x, hx, ht⟩]
      exact h.entry fd' x hx
    · rw [hs.self]
      exact ⟨b, hposition⟩
  · rcases (hs.mem fd' x).mp hx with hx | ⟨rfl, rfl⟩
    · rw [hs.threads x.t fun ht => hnot ⟨fd', x, hx, ht⟩]
      exact h.retval fd' x hx
    · rw [hs.self]
      exact hretval
  · by_cases hfd : fd' = fd
    · subst hfd
      exact absurd (hs.isActive.symm.trans hclosed) (by decide)
    · rw [hs.fds fd' hfd] at hclosed ⊢
      exact h.closed fd' hclosed

end sent

section count

variable [Fintype ι]

/-- The invariant, and what it is for. -/
structure Good (s : State ι) : Prop extends Inv s, Delivers s

/-- A step that leaves the tables as they are, and closes no connection with entries. -/
structure SameTables (s s' : State ι) : Prop where
  table : ∀ fd, (s'.fds fd).waiting4reply = (s.fds fd).waiting4reply
  heap : ∀ fd, (s'.fds fd).waiting4replyHeap = (s.fds fd).waiting4replyHeap
  closed : ∀ fd, (s'.fds fd).isActive = false → (s.fds fd).waiting4reply = []

theorem Good.sameTables (h : s.Good) (hfds : s'.fds = s.fds) : SameTables s s' := by
  refine ⟨fun fd => ?_, fun fd => ?_, fun fd => ?_⟩
  · rw [hfds]
  · rw [hfds]
  · rw [hfds]
    exact h.closed fd

theorem Good.sameTables_setFd {data : FdData ι} (h : s.Good) (hfds : s'.fds = update s.fds fd data)
    (htable : data.waiting4reply = (s.fds fd).waiting4reply) (hheap : data.waiting4replyHeap = (s.fds fd).waiting4replyHeap)
    (hclosed : data.isActive = false → (s.fds fd).waiting4reply = []) : SameTables s s' := by
  have hsame : ∀ fd', (s'.fds fd').waiting4reply = (s.fds fd').waiting4reply ∧
      (s'.fds fd').waiting4replyHeap = (s.fds fd').waiting4replyHeap ∧
      ((s'.fds fd').isActive = false → (s.fds fd').waiting4reply = []) := by
    intro fd'
    rw [hfds]
    by_cases hfd : fd' = fd
    · subst hfd
      rw [update_self]
      exact ⟨htable, hheap, hclosed⟩
    · rw [update_of_ne hfd]
      exact ⟨rfl, rfl, h.closed fd'⟩
  exact ⟨fun fd' => (hsame fd').1, fun fd' => (hsame fd').2.1, fun fd' => (hsame fd').2.2⟩

/-- Only threads that are in no table change, and they do not wait afterwards. -/
theorem Good.of_sameTables (h : s.Good) (hs : SameTables s s')
    (hthreads : ∀ j, s'.threads j = s.threads j ∨ ¬ s.Registered j ∧ (s'.threads j).sem = 0 ∧
      ∀ fd requestId slow, (s'.threads j).position ≠ .waiting fd requestId slow)
    (hslow : s'.pendingSlowReqsCount.toNat = count slow s'.threads) : s'.Good := by
  have hreg : ∀ j, s'.Registered j ↔ s.Registered j := by
    intro j
    simp only [Registered, hs.table]
  have hentry : ∀ fd, ∀ wd ∈ (s'.fds fd).waiting4reply,
      wd ∈ (s.fds fd).waiting4reply ∧ s'.threads wd.t = s.threads wd.t := by
    intro fd wd hwd
    rw [hs.table] at hwd
    exact ⟨hwd, (hthreads wd.t).resolve_right fun hother => hother.1 ⟨fd, wd, hwd, rfl⟩⟩
  refine ⟨⟨?_, ?_, fun fd wd hwd => ?_, fun fd wd hwd => ?_, ?_⟩, fun j fd id slow hpos => ?_, fun j hpos => ?_, ?_, hslow⟩
  · simpa only [hs.table] using h.ids
  · simpa only [hs.table, hs.heap] using h.perm
  · obtain ⟨hmem, hsame⟩ := hentry fd wd hwd
    rw [hsame]
    exact h.entry fd wd hmem
  · obtain ⟨hmem, hsame⟩ := hentry fd wd hwd
    rw [hsame]
    exact h.retval fd wd hmem
  · simpa only [hs.table] using hs.closed
  · rw [hs.table, hreg]
    rcases hthreads j with hsame | ⟨-, -, hnot⟩
    · rw [hsame] at hpos ⊢
      exact h.waiting j fd id slow hpos
    · exact absurd hpos (hnot fd id slow)
  · rw [hreg]
    rcases hthreads j with hsame | ⟨hnot, hsem, -⟩
    · rw [hsame] at hpos ⊢
      exact h.others j hpos
    · exact ⟨hsem, hnot⟩
  · simpa only [hs.table, hs.heap] using h.same

theorem Good.frame (h : s.Good) (hs : SameTables s s') (hthreads : s'.threads = s.threads)
    (hcount : s'.pendingSlowReqsCount = s.pendingSlowReqsCount) : s'.Good := by
  refine h.of_sameTables hs (fun j => .inl (by rw [hthreads])) ?_
  rw [hcount, hthreads]
  exact h.slow

theorem Good.setEmpty {data : FdData ι} (h : s.Good) (htable : (s.fds fd).waiting4reply = [])
    (hdata : data.waiting4reply = []) (hheap : data.waiting4replyHeap = []) :
    { s with fds := update s.fds fd data }.Good :=
  h.frame (h.sameTables_setFd rfl (hdata.trans htable.symm) (hheap.trans (h.heap_eq_nil htable).symm) fun _ => htable)
    rfl rfl

theorem Good.not_waiting (h : s.Good) {i : ι} (hi : (s.threads i).position = .outside) :
    (s.threads i).sem = 0 ∧ ¬ s.Registered i :=
  h.others i fun _ _ _ hpos => by rw [hi] at hpos; cases hpos

/-- What `send_request` does with a request ID that is in use: its entry is not in the table any more. -/
theorem not_delivers_sent {i : ι} {requestId : UInt32} {x : Waiting4reply ι} (now : UInt32) (h : s.Good)
    (hi : (s.threads i).position = .outside) (hx : x ∈ (s.fds fd).waiting4reply) (hid : x.requestId = requestId) {data : FdData ι}
    (htable : ∀ y ∈ data.waiting4reply, y = ⟨requestId, i, now⟩ ∨ y.requestId ≠ requestId)
    (hheap : ∀ y ∈ (s.fds fd).waiting4replyHeap, y ∈ data.waiting4replyHeap) (hfds : s'.fds fd = data) : ¬ s'.Delivers := by
  intro hd'
  have hmem : x ∈ (s'.fds fd).waiting4reply := by
    rw [hd'.same, hfds]
    exact hheap x ((h.same fd x).mp hx)
  rw [hfds] at hmem
  rcases htable x hmem with rfl | hne
  · exact (h.not_waiting hi).2 ⟨fd, _, hx, rfl⟩
  · exact hne hid

theorem Sent.delivers {b : Bool} {t : Thread} (hs : Sent s s' fd wd t) (h' : s'.Inv)
    (hd : s.Delivers) (hposition : t.position = .waiting fd wd.requestId b) (hsem : t.sem = 0)
    (hslow : s'.pendingSlowReqsCount.toNat = count slow s'.threads) : s'.Delivers := by
  refine ⟨fun j fd' id slow hpos => ?_, fun j hpos => ?_, fun fd' x => (h'.perm fd').mem_iff, hslow⟩
  · by_cases hj : j = wd.t
    · subst hj
      rw [hs.self, hposition, Position.waiting.injEq] at hpos
      obtain ⟨rfl, rfl, rfl⟩ := hpos
      exact .inl ⟨by rw [hs.self, hsem], wd, (hs.mem _ _).mpr (.inr ⟨rfl, rfl⟩), rfl, rfl⟩
    · rw [hs.threads j hj] at hpos ⊢
      rcases hd.waiting j fd' id slow hpos with ⟨hzero, x, hx, ht, hid⟩ | ⟨hone, hnot, hans⟩
      · exact .inl ⟨hzero, x, (hs.mem _ _).mpr (.inl hx), ht, hid⟩
      · exact .inr ⟨hone, fun hr => hnot (hs.registered hj hr), hans⟩
  · have hj : j ≠ wd.t := by
      intro hj
      subst hj
      exact hpos fd wd.requestId b (by rw [hs.self, hposition])
    rw [hs.threads j hj] at hpos ⊢
    exact ⟨(hd.others j hpos).1, fun hr => (hd.others j hpos).2 (hs.registered hj hr)⟩

theorem start_good : (start ι).Good := by
  have hnone : ∀ i, ¬ (start ι).Registered i := by
    intro i ⟨fd, wd, hwd, _⟩
    cases hwd
  refine ⟨⟨fun _ => List.nodup_nil, fun _ => .refl _, fun _ _ hwd => ?_, fun _ _ hwd => ?_, fun _ _ => rfl⟩,
    fun _ _ _ _ hpos => ?_, fun i _ => ⟨rfl, hnone i⟩, fun _ _ => .rfl, ?_⟩
  · cases hwd
  · cases hwd
  · cases hpos
  · exact (count_eq_zero.mpr fun _ => rfl).symm

end count

/-! ## A thread is woken up -/

variable [DecidableEq ι]

theorem clear_table (data : FdData ι) (wd : Waiting4reply ι) :
    (data.clear wd).waiting4reply = data.waiting4reply.filter (·.requestId ≠ wd.requestId) := rfl

variable {answer : Thread → Thread}

theorem mem_wake (fd' : ℕ) (x : Waiting4reply ι) :
    x ∈ ((s.wake fd wd answer).fds fd').waiting4reply ↔
      x ∈ (s.fds fd').waiting4reply ∧ (fd' = fd → x.requestId ≠ wd.requestId) := by
  by_cases hfd : fd' = fd
  · subst hfd
    simp [wake, clear_table]
  · simp [wake, hfd]

theorem wake_position (hanswer : ∀ t, (answer t).position = t.position) (j : ι) :
    ((s.wake fd wd answer).threads j).position = (s.threads j).position := by
  by_cases hj : j = wd.t
  · subst hj
    simp only [wake, update_self, hanswer]
  · simp only [wake, update_of_ne hj]

theorem Inv.wake (h : s.Inv) (hanswer : ∀ t, (answer t).position = t.position)
    (hwd : wd ∈ (s.fds fd).waiting4reply) : (s.wake fd wd answer).Inv := by
  refine ⟨fun fd' => ?_, fun fd' => ?_, fun fd' x hx => ?_, fun fd' x hx => ?_, fun fd' hfd' => ?_⟩
  · by_cases hfd : fd' = fd
    · subst hfd
      simp only [wake, update_self, clear_table]
      exact (h.ids fd').sublist (List.filter_sublist.map _)
    · simp only [State.wake, update_of_ne hfd]
      exact h.ids fd'
  · by_cases hfd : fd' = fd
    · subst hfd
      have hnodup : (s.fds fd').waiting4reply.Nodup := (h.ids fd').of_map _
      have herase : (s.fds fd').waiting4reply.filter (·.requestId ≠ wd.requestId) =
          (s.fds fd').waiting4reply.erase wd := by
        rw [hnodup.erase_eq_filter]
        refine List.filter_congr fun x hx => ?_
        by_cases hxw : x = wd
        · simp [hxw]
        · simp [hxw, mt (h.eq_of_requestId hwd hx) hxw]
      simp only [wake, update_self, FdData.clear, herase]
      exact (h.perm fd').erase wd
    · simp only [State.wake, update_of_ne hfd]
      exact h.perm fd'
  · obtain ⟨slow, hpos⟩ := h.entry fd' x ((mem_wake fd' x).mp hx).1
    exact ⟨slow, (wake_position hanswer x.t).trans hpos⟩
  · obtain ⟨hmem, hne⟩ := (mem_wake fd' x).mp hx
    have ht : x.t ≠ wd.t := by
      intro ht
      obtain ⟨hfd, rfl⟩ := h.eq_of_thread hwd hmem ht
      exact hne hfd rfl
    simp only [State.wake, update_of_ne ht]
    exact h.retval fd' x hmem
  · by_cases hfd : fd' = fd
    · subst hfd
      simp only [wake, update_self] at hfd' ⊢
      rw [clear_table, h.closed fd' hfd']
      rfl
    · simp only [State.wake, update_of_ne hfd] at hfd' ⊢
      exact h.closed fd' hfd'

theorem mem_foldl_wake (x : Waiting4reply ι) (l : List (Waiting4reply ι)) : ∀ s : State ι,
    x ∈ ((l.foldl (fun s wd => s.wake fd wd answer) s).fds fd).waiting4reply ↔
      x ∈ (s.fds fd).waiting4reply ∧ ∀ wd ∈ l, x.requestId ≠ wd.requestId := by
  induction l with
  | nil =>
    intro s
    simp
  | cons wd l ih =>
    intro s
    simp only [List.foldl_cons, ih, mem_wake, List.forall_mem_cons, and_assoc, true_imp_iff]

theorem wakeAllThreads_table (retval : ℤ) : ((s.wakeAllThreads fd retval).fds fd).waiting4reply = [] := by
  refine List.eq_nil_iff_forall_not_mem.mpr fun x hx => ?_
  obtain ⟨hmem, hne⟩ := (mem_foldl_wake x _ s).mp hx
  exact hne x hmem rfl

theorem insert_clear_table {data : FdData ι} (hfree : ∀ x ∈ data.waiting4reply, x.requestId ≠ wd.requestId) :
    ((data.insert wd).clear wd).waiting4reply = data.waiting4reply := by
  rw [clear_table, insert_table hfree]
  simp only [ne_eq, not_true_eq_false, decide_false, Bool.false_eq_true, not_false_eq_true, List.filter_cons_of_neg]
  exact List.filter_eq_self.mpr fun x hx => decide_eq_true (hfree x hx)

theorem insert_clear_heap (data : FdData ι) : ((data.insert wd).clear wd).waiting4replyHeap = data.waiting4replyHeap :=
  List.erase_cons_head ..

variable [Fintype ι]

theorem wake_slow (hanswer : ∀ t, (answer t).position = t.position) :
    count slow (s.wake fd wd answer).threads = count slow s.threads := by
  unfold count slow
  simp only [wake_position hanswer]

theorem Delivers.wake (hd : s.Delivers) (h : s.Inv)
    (hanswer : ∀ t, (answer t).position = t.position) (hsem : ∀ t, (answer t).sem = t.sem)
    (hwd : wd ∈ (s.fds fd).waiting4reply) (hanswered : (answer (s.threads wd.t)).Answered wd.requestId) :
    (s.wake fd wd answer).Delivers := by
  -- the thread has no other entry
  have hgone : ¬ (s.wake fd wd answer).Registered wd.t := by
    intro ⟨fd', x, hx, ht⟩
    obtain ⟨hmem, hne⟩ := (mem_wake fd' x).mp hx
    obtain ⟨hfd, rfl⟩ := h.eq_of_thread hwd hmem ht
    exact hne hfd rfl
  have hfewer : ∀ j, (s.wake fd wd answer).Registered j → s.Registered j := by
    intro j ⟨fd', x, hx, ht⟩
    exact ⟨fd', x, ((mem_wake fd' x).mp hx).1, ht⟩
  refine ⟨fun j fd' id slow hpos => ?_, fun j hpos => ?_, fun fd' x => ?_, ?_⟩
  · rw [wake_position hanswer] at hpos
    by_cases hj : j = wd.t
    · subst hj
      obtain ⟨slow', hpos'⟩ := h.entry fd wd hwd
      rw [hpos', Position.waiting.injEq] at hpos
      obtain ⟨rfl, rfl, rfl⟩ := hpos
      have hzero : (s.threads wd.t).sem = 0 := by
        rcases hd.waiting wd.t fd wd.requestId slow' hpos' with ⟨hzero, -⟩ | ⟨-, hnot, -⟩
        · exact hzero
        · exact absurd ⟨fd, wd, hwd, rfl⟩ hnot
      refine .inr ⟨?_, hgone, ?_⟩
      · simp only [State.wake, update_self, hsem, hzero]
      · simp only [State.wake, update_self]
        exact hanswered
    · have hthread : (s.wake fd wd answer).threads j = s.threads j := update_of_ne hj _ _
      rw [hthread]
      rcases hd.waiting j fd' id slow hpos with ⟨hzero, x, hx, ht, hid⟩ | ⟨hone, hnot, hans⟩
      · refine .inl ⟨hzero, x, (mem_wake fd' x).mpr ⟨hx, fun hfd hid' => hj ?_⟩, ht, hid⟩
        subst hfd
        rw [← ht, h.eq_of_requestId hwd hx hid']
      · exact .inr ⟨hone, fun hr => hnot (hfewer j hr), hans⟩
  · simp only [wake_position hanswer] at hpos
    have hj : j ≠ wd.t := by
      intro hj
      subst hj
      obtain ⟨slow', hpos'⟩ := h.entry fd wd hwd
      exact hpos _ _ _ hpos'
    have hthread : (s.wake fd wd answer).threads j = s.threads j := update_of_ne hj _ _
    rw [hthread]
    exact ⟨(hd.others j hpos).1, fun hr => (hd.others j hpos).2 (hfewer j hr)⟩
  · exact ((h.wake hanswer hwd).perm fd').mem_iff
  · rw [wake_slow hanswer]
    exact hd.slow

/-! ## The loops that wake threads up -/

theorem Good.wake (h : s.Good) (hanswer : ∀ t, (answer t).position = t.position) (hsem : ∀ t, (answer t).sem = t.sem)
    (hwd : wd ∈ (s.fds fd).waiting4reply) (hanswered : (answer (s.threads wd.t)).Answered wd.requestId) :
    (s.wake fd wd answer).Good :=
  ⟨h.toInv.wake hanswer hwd, h.toDelivers.wake h.toInv hanswer hsem hwd hanswered⟩

theorem Good.wake_error {retval : ℤ} (h : s.Good)
    (hretval : retval = ZFS_CONNECTION_CLOSED ∨ retval = ZFS_REQUEST_TIMEOUT ∨ retval = ZFS_EXITING)
    (hwd : wd ∈ (s.fds fd).waiting4reply) : (s.wake fd wd fun t => { t with retval := retval }).Good :=
  h.wake (fun _ => rfl) (fun _ => rfl) hwd (.inr hretval)

theorem Good.foldl_wake {retval : ℤ}
    (hretval : retval = ZFS_CONNECTION_CLOSED ∨ retval = ZFS_REQUEST_TIMEOUT ∨ retval = ZFS_EXITING)
    (l : List (Waiting4reply ι)) : ∀ {s : State ι}, s.Good → (l.map (·.requestId)).Nodup →
      (∀ wd ∈ l, wd ∈ (s.fds fd).waiting4reply) →
      (l.foldl (fun s wd => s.wake fd wd fun t => { t with retval := retval }) s).Good := by
  induction l with
  | nil =>
    intro s h _ _
    exact h
  | cons wd l ih =>
    intro s h hids hl
    rw [List.map_cons, List.nodup_cons] at hids
    have hwd := hl wd List.mem_cons_self
    refine ih (h.wake_error hretval hwd) hids.2 fun x hx => ?_
    refine (mem_wake fd x).mpr ⟨hl x (List.mem_cons_of_mem _ hx), fun _ hid => hids.1 ?_⟩
    rw [← hid]
    exact List.mem_map_of_mem hx

theorem Good.wakeAllThreads {retval : ℤ} (h : s.Good)
    (hretval : retval = ZFS_CONNECTION_CLOSED ∨ retval = ZFS_REQUEST_TIMEOUT ∨ retval = ZFS_EXITING) :
    (s.wakeAllThreads fd retval).Good :=
  Good.foldl_wake hretval _ h (h.ids fd) fun _ hwd => hwd

theorem Good.timeoutRequests {threshold : UInt32} (n : ℕ) : ∀ {s : State ι}, s.Good →
    (timeoutRequests fd threshold n s).Good := by
  induction n with
  | zero =>
    intro s h
    exact h
  | succ n ih =>
    intro s h
    rw [State.timeoutRequests]
    split
    · exact h
    · rename_i wd hmin
      have hwd : wd ∈ (s.fds fd).waiting4reply := (h.perm fd).mem_iff.mpr (List.argmin_mem hmin)
      split_ifs
      · exact ih (h.wake_error (.inr (.inl rfl)) hwd)
      · exact h

theorem Good.networkDispatch (h : s.Good) (dc : DC) : (s.networkDispatch fd dc).Good := by
  unfold State.networkDispatch
  split
  · rename_i dc1 hdirection
    split
    · rename_i requestId dc2 hrequestId
      split
      · rename_i wd hfind
        have hwd := List.mem_of_find?_eq_some hfind
        have hid : wd.requestId = requestId := by simpa using List.find?_some hfind
        refine h.wake (fun _ => rfl) (fun _ => rfl) hwd (.inl ⟨?_, dc, dc2, ?_, rfl⟩)
        · exact h.retval fd wd hwd
        · exact ⟨dc1, hdirection, by rw [hrequestId, hid]⟩
      · exact h
    · exact h
  · exact h

/-! ## A thread leaves -/

theorem Good.setThread {i : ι} {t : Thread} (h : s.Good) (hs : SameTables s s') (hnot : ¬ s.Registered i)
    (hthreads : s'.threads = update s.threads i t) (hsem : t.sem = 0)
    (hposition : ∀ fd requestId slow, t.position ≠ .waiting fd requestId slow)
    (hslow : s'.pendingSlowReqsCount.toNat = count slow s'.threads) : s'.Good := by
  refine h.of_sameTables hs (fun j => ?_) hslow
  rw [hthreads]
  by_cases hj : j = i
  · subst hj
    rw [update_self]
    exact .inr ⟨hnot, hsem, hposition⟩
  · exact .inl (update_of_ne hj _ _)

theorem Good.leave {i : ι} {t : Thread} (h : s.Good) (hnot : ¬ s.Registered i) (hsem : t.sem = 0)
    (hslow : t.slow = (s.threads i).slow) : (s.leave i t).Good := by
  refine h.setThread (h.sameTables rfl) hnot (t := { t with position := .outside }) rfl hsem
    (fun _ _ _ hpos => by cases hpos) ?_
  have hcount := count_update slow s.threads i { t with position := .outside }
  change count slow (s.leave i t).threads + _ = _ + 0 at hcount
  rw [← hslow] at hcount
  have hbefore := h.slow
  simp only [State.leave]
  cases ht : t.slow with
  | false =>
    rw [ht] at hcount
    simp only [Bool.false_eq_true, if_false]
    exact hbefore.trans hcount.symm
  | true =>
    rw [ht] at hcount
    change _ + 1 = _ at hcount
    have hone : (1 : UInt32) ≤ s.pendingSlowReqsCount := UInt32.le_iff_toNat_le.mpr (by change 1 ≤ _; omega)
    have hsub : (s.pendingSlowReqsCount - 1).toNat = s.pendingSlowReqsCount.toNat - 1 := UInt32.toNat_sub_of_le _ _ hone
    simp only [if_true]
    change (s.pendingSlowReqsCount - 1).toNat = count slow (s.leave i t).threads
    omega

/-! ## A request is sent -/

theorem send_slow {i : ι} {t : Thread} {b : Bool} (hi : (s.threads i).position = .outside) (ht : t.slow = b)
    (hslow : s.pendingSlowReqsCount.toNat = count slow s.threads) :
    (if b then s.pendingSlowReqsCount + 1 else s.pendingSlowReqsCount).toNat = count slow (update s.threads i t) ↔
      (b = true → s.pendingSlowReqsCount.toNat + 1 < 2 ^ 32) := by
  have hcount := count_update slow s.threads i t
  have hold : (s.threads i).slow = false := by rw [slow, hi]
  rw [hold, ht] at hcount
  have hlt := s.pendingSlowReqsCount.toNat_lt
  cases b with
  | false =>
    simp only [Bool.false_eq_true, if_false, false_imp_iff, iff_true]
    exact hslow.trans hcount.symm
  | true =>
    have hadd : (s.pendingSlowReqsCount + 1).toNat = (s.pendingSlowReqsCount.toNat + 1) % 2 ^ 32 := UInt32.toNat_add _ _
    simp only [if_true, true_imp_iff, hadd]
    change _ + 0 = _ + 1 at hcount
    omega

section register

variable {i : ι} {requestId now : UInt32} {b : Bool} {t : Thread}

theorem Good.sent (h : s.Good) (hi : (s.threads i).position = .outside)
    (hactive : (s.fds fd).isActive = true) (hfree : ∀ x ∈ (s.fds fd).waiting4reply, x.requestId ≠ requestId)
    (hposition : t.position = .waiting fd requestId b) (hsem : t.sem = (s.threads i).sem) (hretval : t.retval = ZFS_OK)
    (hfds : s'.fds = update s.fds fd ((s.fds fd).insert ⟨requestId, i, now⟩)) (hthreads : s'.threads = update s.threads i t)
    (hslow : s'.pendingSlowReqsCount.toNat = count slow s'.threads) : s'.Good := by
  obtain ⟨hzero, hnot⟩ := h.not_waiting hi
  have hs : Sent s s' fd ⟨requestId, i, now⟩ t := by
    refine ⟨?_, ?_, ?_, fun fd' hfd => ?_, ?_, fun j hj => ?_⟩
    · rw [hfds, update_self, insert_table hfree]
    · rw [hfds, update_self]
      rfl
    · rw [hfds, update_self]
      exact hactive
    · rw [hfds, update_of_ne hfd]
    · rw [hthreads, update_self]
    · rw [hthreads, update_of_ne hj]
  have h' := hs.inv h.toInv hnot hfree hposition hretval
  exact ⟨h', hs.delivers h' h.toDelivers hposition (hsem.trans hzero) hslow⟩

end register

section request

variable {i : ι} {now : UInt32} {written : Bool} (h : s.Good) (hi : (s.threads i).position = .outside)
include h hi

theorem sendRequest_slow (hterm : s.terminate = false) :
    (s.sendRequest i fd now written).pendingSlowReqsCount.toNat =
        count slow (s.sendRequest i fd now written).threads ↔
      ((s.fds fd).speed = .slow → s.pendingSlowReqsCount.toNat + 1 < 2 ^ 32) := by
  rw [← decide_eq_true_iff (p := (s.fds fd).speed = .slow)]
  cases written with
  | true =>
    have hsend := send_slow hi (t := ⟨.waiting fd s.requestId (decide ((s.fds fd).speed = .slow)), (s.threads i).sem,
      ZFS_OK, none⟩) (Eq.refl (decide ((s.fds fd).speed = .slow))) h.slow
    simpa only [sendRequest, hterm, Bool.false_eq_true, if_false, if_true] using hsend
  | false =>
    have hsend := send_slow hi (t := ⟨.failed (decide ((s.fds fd).speed = .slow)), (s.threads i).sem,
      ZFS_CONNECTION_CLOSED, none⟩) (Eq.refl (decide ((s.fds fd).speed = .slow))) h.slow
    simpa only [sendRequest, hterm, Bool.false_eq_true, if_false] using hsend

theorem Good.sendRequest_of_free (hactive : (s.fds fd).isActive = true) (hterm : s.terminate = false)
    (hfree : ∀ x ∈ (s.fds fd).waiting4reply, x.requestId ≠ s.requestId)
    (hslow : (s.sendRequest i fd now written).pendingSlowReqsCount.toNat =
      count slow (s.sendRequest i fd now written).threads) : (s.sendRequest i fd now written).Good := by
  cases written with
  | true =>
    simp only [sendRequest, hterm, Bool.false_eq_true, if_false, if_true] at hslow ⊢
    exact h.sent hi hactive hfree (t := ⟨.waiting fd s.requestId (decide ((s.fds fd).speed = .slow)),
      (s.threads i).sem, ZFS_OK, none⟩) rfl rfl rfl rfl rfl hslow
  | false =>
    simp only [sendRequest, hterm, Bool.false_eq_true, if_false] at hslow ⊢
    obtain ⟨hzero, hnot⟩ := h.not_waiting hi
    refine h.setThread (h.sameTables_setFd rfl (insert_clear_table hfree) (insert_clear_heap (s.fds fd)) ?_) hnot
      (t := ⟨.failed (decide ((s.fds fd).speed = .slow)), (s.threads i).sem, ZFS_CONNECTION_CLOSED, none⟩) rfl hzero
      (fun _ _ _ hpos => by cases hpos) hslow
    exact fun hclosed => absurd (hactive.symm.trans hclosed) (by decide)

theorem not_delivers_sendRequest {x : Waiting4reply ι} (hterm : s.terminate = false)
    (hx : x ∈ (s.fds fd).waiting4reply) (hid : x.requestId = s.requestId) : ¬ (s.sendRequest i fd now written).Delivers := by
  simp only [sendRequest, hterm, Bool.false_eq_true, if_false]
  cases written with
  | true =>
    refine not_delivers_sent now h hi hx hid (fun y hy => ?_) (fun y hy => ?_) (update_self _ _ _)
    · exact ((mem_insert _ _ y).mp hy).imp_right And.right
    · exact List.mem_cons_of_mem _ hy
  | false =>
    refine not_delivers_sent now h hi hx hid (fun y hy => .inr ?_) (fun y hy => ?_) (update_self _ _ _)
    · exact of_decide_eq_true (List.mem_filter.mp hy).2
    · rw [insert_clear_heap]
      exact hy

theorem Good.sendRequest_of_terminate (hterm : s.terminate = true) : (s.sendRequest i fd now written).Good := by
  obtain ⟨hzero, hnot⟩ := h.not_waiting hi
  simp only [sendRequest, hterm, if_true]
  refine h.setThread (h.sameTables rfl) hnot (t := { s.threads i with dcReply := none, retval := ZFS_EXITING }) rfl hzero
    (fun _ _ _ hpos => ?_) ?_
  · rw [hi] at hpos
    cases hpos
  · have hslow : ({ s.threads i with dcReply := none, retval := ZFS_EXITING } : Thread).slow = false := by
      rw [slow, hi]
    exact (send_slow hi hslow h.slow).mpr fun h => by cases h

theorem Good.sendRequest (hactive : (s.fds fd).isActive = true) :
    ((s.sendRequest i fd now written).Delivers ↔ s.SendSafe (.send i fd now written)) ∧
      (s.SendSafe (.send i fd now written) → (s.sendRequest i fd now written).Good) := by
  cases hterm : s.terminate with
  | true =>
    have hsent : (s.sendRequest i fd now written).Good := h.sendRequest_of_terminate hi hterm
    refine ⟨iff_of_true hsent.toDelivers fun h => ?_, fun _ => hsent⟩
    rw [hterm] at h
    cases h
  | false =>
    have hbound : (s.sendRequest i fd now written).pendingSlowReqsCount.toNat =
          count slow (s.sendRequest i fd now written).threads ↔
        ((s.fds fd).speed = .slow → s.pendingSlowReqsCount.toNat + 1 < 2 ^ 32) := sendRequest_slow h hi hterm
    by_cases hfree : ∀ x ∈ (s.fds fd).waiting4reply, x.requestId ≠ s.requestId
    · -- the ID is free: what is left is the number of slow requests
      have hgood : s.SendSafe (.send i fd now written) → (s.sendRequest i fd now written).Good := fun hs =>
        h.sendRequest_of_free hi hactive hterm hfree (hbound.mpr (hs hterm).2)
      exact ⟨⟨fun hd' _ => ⟨hfree, hbound.mp hd'.slow⟩, fun hs => (hgood hs).toDelivers⟩, hgood⟩
    · simp only [ne_eq, not_forall, not_not] at hfree
      obtain ⟨x, hx, hid⟩ := hfree
      have hunsafe : ¬ s.SendSafe (.send i fd now written) := fun hs => (hs hterm).1 x hx hid
      exact ⟨iff_of_false (not_delivers_sendRequest h hi hterm hx hid) hunsafe, fun hs => absurd hs hunsafe⟩

end request

/-! ## Runs -/

theorem Good.resume {i : ι} {fd : ℕ} {requestId : UInt32} {slow : Bool} (h : s.Good)
    (hpos : (s.threads i).position = .waiting fd requestId slow) (hsem : 0 < (s.threads i).sem) :
    (s.leave i (decodeReply { s.threads i with sem := (s.threads i).sem - 1 })).Good := by
  obtain ⟨hposition, hsem'⟩ := decodeReply_same { s.threads i with sem := (s.threads i).sem - 1 }
  rcases h.waiting i fd requestId slow hpos with ⟨hzero, -⟩ | ⟨hone, hnot, -⟩
  · omega
  · refine h.leave hnot ?_ ?_
    · rw [hsem', hone]
    · rw [Thread.slow, Thread.slow, hposition]

theorem good_step {e : Event ι} (h : s.Good) (hstep : s.step e = some s') :
    (s'.Delivers ↔ s.SendSafe e) ∧ (s.SendSafe e → s'.Good) := by
  have hsafe : s.SendSafe e → s'.Good → (s'.Delivers ↔ s.SendSafe e) ∧ (s.SendSafe e → s'.Good) :=
    fun hs hgood => ⟨iff_of_true hgood.toDelivers hs, fun _ => hgood⟩
  cases e with
  | connect fd =>
    simp only [step] at hstep
    split_ifs at hstep with hactive
    cases hstep
    exact hsafe trivial (h.setEmpty (h.closed fd (Bool.eq_false_iff.mpr hactive)) rfl rfl)
  | measure fd speed =>
    simp only [step] at hstep
    split_ifs at hstep with hactive
    cases hstep
    exact hsafe trivial (h.frame (h.sameTables_setFd rfl rfl rfl (h.closed fd)) rfl rfl)
  | skip =>
    cases hstep
    exact hsafe trivial (h.frame (h.sameTables rfl) rfl rfl)
  | send i fd now written =>
    simp only [step] at hstep
    split_ifs at hstep with hsend
    cases hstep
    exact h.sendRequest hsend.1 hsend.2
  | dispatch fd dc =>
    simp only [step] at hstep
    split_ifs at hstep
    cases hstep
    exact hsafe trivial (h.networkDispatch dc)
  | timeout fd now =>
    simp only [step] at hstep
    split_ifs at hstep <;> cases hstep <;> exact hsafe trivial (Good.timeoutRequests _ h)
  | close fd =>
    simp only [step] at hstep
    split_ifs at hstep
    cases hstep
    exact hsafe trivial ((h.wakeAllThreads (.inl rfl)).setEmpty (wakeAllThreads_table _) rfl rfl)
  | shutdown fd =>
    simp only [step] at hstep
    split_ifs at hstep
    cases hstep
    exact hsafe trivial (h.wakeAllThreads (.inr (.inr rfl)))
  | terminate =>
    cases hstep
    exact hsafe trivial (h.frame (h.sameTables rfl) rfl rfl)
  | resume i =>
    simp only [step] at hstep
    split at hstep
    · rename_i hpos
      split_ifs at hstep with hsem
      cases hstep
      exact hsafe trivial (h.resume hpos hsem)
    · cases hstep
  | fail i =>
    simp only [step] at hstep
    split at hstep
    · rename_i hpos
      cases hstep
      obtain ⟨hzero, hnot⟩ := h.others i fun _ _ _ hwait => by rw [hpos] at hwait; cases hwait
      exact hsafe trivial (h.leave hnot hzero rfl)
    · cases hstep

end State

/-- Each thread that waits for a reply is woken up once, with the reply to its request or with an error, the entries
of the table are those of the heap and the slow requests are counted, as long as no request gets an ID which another
request of the connection has. -/
theorem requests_iff (ι : Type) [DecidableEq ι] [Fintype ι] (es : List (Event ι)) :
    (∀ s ∈ Runs.visited step (start ι) es, s.Delivers) ↔
      ∀ x ∈ Runs.taken step (start ι) es, x.1.SendSafe x.2 :=
  Runs.visited_iff_taken (I := Good) (fun _ _ _ h _ hs hstep => (good_step h hstep).2 hs)
    (fun _ _ _ h _ hstep => (good_step h hstep).1) es _ start_good start_good.toDelivers

/-! ## The request IDs wrap -/

theorem run_skip {ι : Type} [DecidableEq ι] (n : ℕ) : ∀ s : State ι,
    Runs.run step s (List.replicate n .skip) = some { s with requestId := s.requestId + UInt32.ofNat n } := by
  induction n with
  | zero =>
    intro s
    simp [Runs.run]
  | succ n ih =>
    intro s
    rw [List.replicate_succ, Runs.run]
    simp only [step, Option.bind_some]
    rw [ih]
    simp only [UInt32.ofNat_add, UInt32.add_assoc, UInt32.add_comm (UInt32.ofNat n)]
    rfl

/-- Two requests on one connection, with `n` other request IDs taken in between. -/
theorem run_reuse (n : ℕ) (hn : 1 + UInt32.ofNat n = 0) : ∃ s : State Bool,
    Runs.run step (start Bool) ([.connect 0, .send false 0 1 true] ++
      (List.replicate n .skip ++ [.send true 0 1 true])) = some s ∧
      (s.fds 0).waiting4reply = [⟨0, true, 1⟩] ∧ (s.fds 0).waiting4replyHeap = [⟨0, true, 1⟩, ⟨0, false, 1⟩] := by
  obtain ⟨s, hrun, hid, hterm, htable, hheap, hactive, hthread⟩ : ∃ s : State Bool,
      Runs.run step (start Bool) [.connect 0, .send false 0 1 true] = some s ∧ s.requestId = 1 ∧
        s.terminate = false ∧ (s.fds 0).waiting4reply = [⟨0, false, 1⟩] ∧ (s.fds 0).waiting4replyHeap = [⟨0, false, 1⟩] ∧
        (s.fds 0).isActive = true ∧ (s.threads true).position = .outside := ⟨_, rfl, rfl, rfl, rfl, rfl, rfl, rfl⟩
  rw [Runs.run_append, hrun, Option.bind_some, Runs.run_append, run_skip, hid, hn]
  simp only [Option.bind_some, Runs.run, step, hthread, hactive, and_self, if_true, Option.some.injEq, sendRequest,
    hterm, Bool.false_eq_true, if_false, exists_eq_left', update_self, FdData.insert, htable, hheap, and_true]
  rfl

/-- A thread whose request got the first ID waits until the IDs wrap. Its entry is overwritten by another request of
the connection: it is left in the heap only, and no reply wakes the thread up. -/
theorem request_lost : ¬ ∀ es : List (Event Bool), ∀ s ∈ Runs.visited step (start Bool) es, s.Delivers := by
  intro h
  obtain ⟨s, hrun, htable, hheap⟩ := run_reuse (2 ^ 32 - 1) rfl
  have hsame := (h _ s (Runs.mem_visited_of_run _ hrun)).same 0 ⟨0, false, 1⟩
  rw [htable, hheap] at hsame
  simp at hsame

end ZFS.Requests
