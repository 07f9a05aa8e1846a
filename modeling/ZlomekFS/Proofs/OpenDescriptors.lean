import ZlomekFS.Spec.OpenDescriptors

/-! Which descriptors are open after `safe_open` and `open_metadata`. -/

namespace ZFS.Descriptors

theorem lowest_notMem (fds : Finset ℕ) : lowest fds ∉ fds := Nat.find_spec (Infinite.exists_notMem_finset fds)

theorem subset_apply (o : Outcome) (fds : Finset ℕ) : fds ⊆ (o.apply fds).2 := by
  cases o with
  | opened => exact Finset.subset_insert ..
  | emfile | failed => exact subset_rfl

theorem apply_ne {o : Outcome} {fds : Finset ℕ} {fd : ℕ} (hfd : fd ∈ fds) : (o.apply fds).1 ≠ some fd := by
  cases o with
  | opened => exact fun h => lowest_notMem fds (Option.some.inj h ▸ hfd)
  | emfile | failed => exact Option.some_ne_none _ ∘ Eq.symm

variable {max : ℕ} {pattern : ℕ → Outcome}

theorem calls_retryOpen (heap : List (Option ℕ)) (fds : Finset ℕ) (n : ℕ) :
    (retryOpen max pattern heap fds n).calls ≤ n + heap.length + 1 ∧
      (retryOpen max pattern heap fds n).heap <:+ heap := by
  induction heap generalizing fds n with
  | nil => exact ⟨le_rfl, List.suffix_rfl⟩
  | cons fdData heap ih =>
    rw [retryOpen]
    split_ifs
    · obtain ⟨hcalls, hheap⟩ := ih (closeFd ((pattern n).apply fds).2 fdData) (n + 1)
      refine ⟨?_, hheap.trans (List.suffix_cons _ _)⟩
      rw [List.length_cons]
      omega
    · exact ⟨by dsimp only; omega, List.suffix_rfl⟩

theorem kept_retryOpen (heap : List (Option ℕ)) (fds : Finset ℕ) (n : ℕ) {fd : ℕ} (hfd : fd ∈ fds)
    (hheap : some fd ∉ heap) :
    fd ∈ (retryOpen max pattern heap fds n).fds ∧ (retryOpen max pattern heap fds n).fd ≠ some fd := by
  induction heap generalizing fds n with
  | nil => exact ⟨subset_apply _ _ hfd, apply_ne hfd⟩
  | cons fdData heap ih =>
    rw [List.mem_cons, not_or] at hheap
    rw [retryOpen]
    split_ifs
    · refine ih _ _ ?_ hheap.2
      cases fdData with
      | none => exact subset_apply _ _ hfd
      | some fd' => exact Finset.mem_erase.mpr ⟨fun h => hheap.1 (congrArg some h), subset_apply _ _ hfd⟩
    · exact ⟨subset_apply _ _ hfd, apply_ne hfd⟩

/-! ## The account -/

theorem accounted_last (o : Outcome) (heap : List (Option ℕ)) (fds : Finset ℕ) (n : ℕ) :
    Accounted heap fds ⟨(o.apply fds).1, (o.apply fds).2, heap, n⟩ := by
  cases o <;> simp [Accounted, Outcome.apply]

theorem accounted_cons {heap : List (Option ℕ)} {fds : Finset ℕ} {fdData : Option ℕ}
    (hnodup : (fdData :: heap).reduceOption.Nodup) {r : Result} (hr : r.heap <:+ heap) :
    Accounted (fdData :: heap) fds r ↔ Accounted heap (closeFd fds fdData) r := by
  unfold Accounted
  cases fdData with
  | none => rw [List.reduceOption_cons_of_none, closeFd]
  | some fd =>
    rw [List.reduceOption_cons_of_some] at hnodup ⊢
    have hfd : fd ∉ r.heap.reduceOption := by
      intro h
      refine (List.nodup_cons.mp hnodup).1 ?_
      rw [List.reduceOption_mem_iff] at h ⊢
      exact hr.subset h
    have hset : fds \ ((fd :: heap.reduceOption).toFinset \ r.heap.reduceOption.toFinset) =
        closeFd fds (some fd) \ (heap.reduceOption.toFinset \ r.heap.reduceOption.toFinset) := by
      ext x
      by_cases hx : x = fd
      · simp [closeFd, hx, hfd]
      · simp [closeFd, hx]
    rw [hset]

/-- A file that is opened while the cache is full stays open when `open` is called again. -/
theorem not_accounted_of_opened {heap : List (Option ℕ)} {fds : Finset ℕ} {n : ℕ} {fdData : Option ℕ}
    (hcached : ∀ fd ∈ (fdData :: heap).reduceOption, fd ∈ fds) :
    ¬ Accounted (fdData :: heap) fds
      (retryOpen max pattern heap (closeFd (insert (lowest fds) fds) fdData) (n + 1)) := by
  have hnew : some (lowest fds) ∉ fdData :: heap := fun h =>
    lowest_notMem fds (hcached _ (List.reduceOption_mem_iff.mpr h))
  rw [List.mem_cons, not_or] at hnew
  obtain ⟨hfds, hfd⟩ := @kept_retryOpen max pattern heap
    (closeFd (insert (lowest fds) fds) fdData) (n + 1) (lowest fds) (by
      cases fdData with
      | none => exact Finset.mem_insert_self ..
      | some fd' => exact Finset.mem_erase.mpr ⟨fun h => hnew.1 (congrArg some h), Finset.mem_insert_self ..⟩) hnew.2
  intro h
  rw [h, Finset.mem_union, Finset.mem_sdiff] at hfds
  rcases hfds with ⟨hmem, -⟩ | hret
  · exact lowest_notMem fds hmem
  · exact hfd (Option.mem_toFinset.mp hret)

theorem roomy_succ {size : ℕ} (h : pattern 0 = .emfile) :
    Roomy max pattern (size + 1) ↔ Roomy max (fun j => pattern (j + 1)) size := by
  refine ⟨fun hr k hk hj ho => ?_, fun hr k hk hj ho => ?_⟩
  · have := hr (k + 1) (by omega) (fun j hjk => ?_) ho
    · omega
    · cases j with
      | zero => exact h
      | succ j => exact hj j (by omega)
  · cases k with
    | zero => rw [h] at ho; cases ho
    | succ k =>
      have := hr k (by omega) (fun j hjk => hj (j + 1) (by omega)) ho
      omega

theorem accounted_iff (heap : List (Option ℕ)) (fds : Finset ℕ) (n : ℕ) (hcached : ∀ fd ∈ heap.reduceOption, fd ∈ fds)
    (hnodup : heap.reduceOption.Nodup) :
    Accounted heap fds (retryOpen max pattern heap fds n) ↔ Roomy max (fun j => pattern (n + j)) heap.length := by
  induction heap generalizing fds n with
  | nil => exact iff_of_true (accounted_last ..) fun k hk => absurd hk (Nat.not_lt_zero k)
  | cons fdData heap ih =>
    rw [retryOpen]
    cases hp : pattern n with
    | failed =>
      refine iff_of_true (accounted_last .failed ..) fun k _ hj ho => ?_
      cases k with
      | zero => exact Outcome.noConfusion (hp.symm.trans ho)
      | succ k => exact Outcome.noConfusion (hp.symm.trans (hj 0 k.succ_pos))
    | opened =>
      by_cases hfull : Outcome.evicts max (heap.length + 1) .opened
      · rw [if_pos hfull]
        refine iff_of_false (not_accounted_of_opened hcached) fun hr => ?_
        exact absurd (hr 0 (Nat.succ_pos _) (fun j hj => absurd hj (Nat.not_lt_zero j)) hp) (Nat.not_lt.mpr hfull)
      · rw [if_neg hfull]
        refine iff_of_true (accounted_last .opened ..) fun k _ hj _ => ?_
        cases k with
        | zero => exact Nat.lt_of_not_le hfull
        | succ k => exact Outcome.noConfusion (hp.symm.trans (hj 0 k.succ_pos))
    | emfile =>
      have hevicts : Outcome.evicts max (heap.length + 1) .emfile := trivial
      have hdisjoint : ∀ fd ∈ heap.reduceOption, fd ∈ closeFd fds fdData := by
        intro fd hfd
        cases fdData with
        | none => exact hcached fd hfd
        | some fd' =>
          rw [List.reduceOption_cons_of_some] at hcached hnodup
          refine Finset.mem_erase.mpr ⟨fun he => ?_, hcached fd (List.mem_cons_of_mem _ hfd)⟩
          exact (List.nodup_cons.mp hnodup).1 (he ▸ hfd)
      have hrest : heap.reduceOption.Nodup := by
        cases fdData with
        | none => rwa [List.reduceOption_cons_of_none] at hnodup
        | some fd' =>
          rw [List.reduceOption_cons_of_some] at hnodup
          exact (List.nodup_cons.mp hnodup).2
      rw [if_pos hevicts, accounted_cons hnodup (calls_retryOpen ..).2, List.length_cons, roomy_succ hp]
      refine (ih _ _ hdisjoint hrest).trans (iff_of_eq ?_)
      congr 1
      funext j
      rw [Nat.add_right_comm, Nat.add_assoc]

/-- Both functions end, after at most one call of `open` for each cached descriptor and one more. The descriptors that
are open then are the previous ones without the evicted ones, and the one that is returned, if and only if the first
call of `open` that does not fail with `EMFILE` does not open a file while the cache is full. -/
theorem open_accounted_iff (max : ℕ) (cache : Cache) (pattern : ℕ → Outcome) :
    ((safeOpen max cache pattern).calls ≤ cache.heap.length + 1 ∧
      (openMetadata max cache pattern).calls ≤ cache.heap.length + 1) ∧
    (Accounted cache.heap cache.fds (safeOpen max cache pattern) ↔ Roomy max pattern cache.heap.length) ∧
    (Accounted cache.heap cache.fds (openMetadata max cache pattern) ↔ Roomy max pattern cache.heap.length) := by
  have hcalls := (@calls_retryOpen max pattern cache.heap cache.fds 0).1
  rw [Nat.zero_add] at hcalls
  have hiff := @accounted_iff max pattern cache.heap cache.fds 0 cache.cached cache.nodup
  simp only [Nat.zero_add] at hiff
  exact ⟨⟨hcalls, hcalls⟩, hiff, hiff⟩

def full : Cache := ⟨{0, 1, 2, 3}, [some 3], by simp, by simp⟩

/-- The file is opened twice, and the descriptor 4 is lost. -/
theorem safeOpen_leaks : ¬ Accounted full.heap full.fds (safeOpen 1 full fun _ => .opened) :=
  not_accounted_of_opened full.cached

end ZFS.Descriptors
