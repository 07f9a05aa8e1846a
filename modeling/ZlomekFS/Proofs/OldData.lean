import ZlomekFS.Proofs.IntervalTree
import ZlomekFS.Spec.OldData

/-! Reading an old version: which version file each offset is read from. The parts that are read go up to the next
covered interval, past the intervals of the version and past the range. -/

namespace ZFS
open Spans IntervalTree List

/-! ## One part -/

section Part
variable {f : FlatFile UInt8} {s : IntervalTree × (ℕ → UInt8)} {r : Span} {P : List Span} {o : ℕ}

theorem store_read (buf : ℕ → UInt8) (f : FlatFile UInt8) (start n o : ℕ) :
    store buf start (f.read start n) o = if (start ≤ o ∧ o < start + n) ∧ o < f.size then f.byte o else buf o := by
  unfold store
  split_ifs with hle hin hin
  · rw [FlatFile.getD_read _ _ _ _ _ (by omega) (by omega)]
    congr 1
    omega
  · have hlen : (f.read start n).length ≤ o - start := by
      rw [FlatFile.length_read]
      omega
    rw [getD_eq_getElem?_getD, getElem?_eq_none hlen, Option.getD_none]
  · omega
  · rfl

theorem read_ne_nil : f.read r.start (r.stop - r.start) ≠ [] ↔ r.start < r.stop ∧ r.start < f.size := by
  rw [← length_pos_iff, FlatFile.length_read]
  omega

theorem mem_readPart : o ∈ (readPart f s r).1 ↔ o ∈ s.1 ∨ r.Has o ∧ r.start < f.size := by
  unfold readPart Span.Has
  dsimp only
  split_ifs with hdata
  · rw [read_ne_nil] at hdata
    rw [mem_insert, and_iff_left hdata.2]
  · rw [read_ne_nil] at hdata
    exact (or_iff_left fun hin => hdata ⟨by omega, hin.2⟩).symm

theorem readPart_byte : (readPart f s r).2 o = if r.Has o ∧ o < f.size then f.byte o else s.2 o := by
  refine (store_read s.2 f r.start (r.stop - r.start) o).trans (if_congr ?_ rfl rfl)
  unfold Span.Has
  omega

theorem mem_foldl_readPart (P : List Span) :
    o ∈ (P.foldl (readPart f) s).1 ↔ o ∈ s.1 ∨ ∃ r ∈ P, r.Has o ∧ r.start < f.size := by
  induction P generalizing s with
  | nil => simp
  | cons r P ih =>
    rw [foldl_cons, ih, mem_readPart, or_assoc]
    simp

theorem foldl_readPart_byte (P : List Span) :
    (P.foldl (readPart f) s).2 o = if Covers P o ∧ o < f.size then f.byte o else s.2 o := by
  induction P generalizing s with
  | nil => simp
  | cons r P ih =>
    rw [foldl_cons, ih, readPart_byte, ← ite_or]
    refine if_congr ?_ rfl rfl
    rw [covers_cons]
    tauto

theorem foldl_readPart_fst {f' : FlatFile UInt8} (hsize : f.size = f'.size) (P : List Span) (s' : IntervalTree × (ℕ → UInt8))
    (hs : s.1 = s'.1) : (P.foldl (readPart f) s).1 = (P.foldl (readPart f') s').1 := by
  induction P generalizing s s' with
  | nil => exact hs
  | cons r P ih =>
    refine ih _ ?_
    have hdata : f.read r.start (r.stop - r.start) ≠ [] ↔ f'.read r.start (r.stop - r.start) ≠ [] := by
      rw [read_ne_nil, read_ne_nil, hsize]
    unfold readPart
    dsimp only
    by_cases h : f.read r.start (r.stop - r.start) ≠ []
    · rw [dif_pos h, dif_pos (hdata.mp h), hs]
    · rw [dif_neg h, dif_neg (mt hdata.mpr h), hs]

end Part

/-! ## One version -/

namespace VersionItem

variable {v : VersionItem} {start stop o : ℕ} {covered : IntervalTree} {bytes : FileBytes}

theorem clip_bounds {x : Span} (hx : x ∈ v.clip start stop) : start ≤ x.start := by
  unfold clip at hx
  split at hx
  · obtain ⟨node, -, rfl⟩ := mem_map.mp hx
    exact le_max_left _ _
  · rw [mem_singleton.mp hx]

theorem covers_clip : Covers (v.clip start stop) o ↔ v.Contains o ∧ start ≤ o ∧ o < stop := by
  unfold clip Contains
  cases v.intervals with
  | none => simp [Span.Has]
  | some t => simp [mem_intersection]

theorem Reads.not_mem (h : v.Reads start stop covered o) : o ∉ covered := by
  obtain ⟨r, hr, hin, -⟩ := h
  obtain ⟨x, -, hr⟩ := mem_flatMap.mp hr
  exact (covered.complement_spec x.start x.stop).not_mem o ⟨r, hr, hin⟩

theorem Reads.start_le (h : v.Reads start stop covered o) : start ≤ o := by
  obtain ⟨r, hr, hin, -⟩ := h
  obtain ⟨x, hx, hr⟩ := mem_flatMap.mp hr
  calc start ≤ x.start := clip_bounds hx
    _ ≤ r.start := (covered.complement_spec x.start x.stop).start_le r hr
    _ ≤ o := hin.1

theorem reads_of_contains (hmem : o ∉ covered) (hv : v.Contains o) (hle : start ≤ o) (hlt : o < stop) (hsize : o < v.size) :
    v.Reads start stop covered o := by
  obtain ⟨x, hx, hin⟩ := covers_clip.mpr ⟨hv, hle, hlt⟩
  obtain ⟨r, hr, hin'⟩ := (covered.complement_spec x.start x.stop).covers o hin.1 hin.2 hmem
  exact ⟨r, mem_flatMap.mpr ⟨x, hx, hr⟩, hin', hin'.1.trans_lt hsize⟩

end VersionItem

section Item
variable {v : VersionItem} {start stop o : ℕ} {bytes : FileBytes} {s : IntervalTree × (ℕ → UInt8)}

theorem mem_readItem (hstamp : v.stamp ≠ 0) :
    o ∈ (readItem bytes start stop s v).1 ↔ o ∈ s.1 ∨ v.Reads start stop s.1 o := by
  unfold readItem
  rw [if_neg hstamp, mem_foldl_readPart]
  rfl

theorem readItem_byte_of_reads (hstamp : v.stamp ≠ 0) (h : v.Reads start stop s.1 o) (hsize : o < v.size) :
    (readItem bytes start stop s v).2 o = bytes v.stamp o := by
  obtain ⟨r, hr, hin, -⟩ := h
  unfold readItem
  rw [if_neg hstamp, foldl_readPart_byte, if_pos ⟨⟨r, hr, hin⟩, hsize⟩]
  exact if_pos hsize

theorem readItem_byte_of_not (h : v.Reads start stop s.1 o → v.size ≤ o) : (readItem bytes start stop s v).2 o = s.2 o := by
  unfold readItem
  split_ifs
  · rfl
  · rw [foldl_readPart_byte, if_neg]
    rintro ⟨⟨r, hr, hin⟩, hsize⟩
    exact absurd (h ⟨r, hr, hin, hin.1.trans_lt hsize⟩) (not_le.mpr hsize)

theorem readItem_byte_of_mem (h : o ∈ s.1) : (readItem bytes start stop s v).2 o = s.2 o :=
  readItem_byte_of_not fun hreads => absurd h hreads.not_mem

theorem mem_readItem_of_mem (h : o ∈ s.1) : o ∈ (readItem bytes start stop s v).1 := by
  by_cases hstamp : v.stamp = 0
  · unfold readItem
    rwa [if_pos hstamp]
  · exact (mem_readItem hstamp).mpr (.inl h)

/-! ## The list of versions -/

theorem mem_foldl_readItem_of_mem (l : List VersionItem) (h : o ∈ s.1) : o ∈ (l.foldl (readItem bytes start stop) s).1 := by
  induction l generalizing s with
  | nil => exact h
  | cons v l ih => exact ih (mem_readItem_of_mem h)

theorem foldl_readItem_of_mem (l : List VersionItem) (h : o ∈ s.1) : (l.foldl (readItem bytes start stop) s).2 o = s.2 o := by
  induction l generalizing s with
  | nil => rfl
  | cons v l ih =>
    rw [foldl_cons, ih (mem_readItem_of_mem h)]
    exact readItem_byte_of_mem h

/-- If all files have the same byte at an offset, it is what is read. -/
theorem foldl_readItem_const {b : UInt8} (l : List VersionItem) (hl : ∀ v ∈ l, bytes v.stamp o = b) (hb : s.2 o = b) :
    (l.foldl (readItem bytes start stop) s).2 o = b := by
  induction l generalizing s with
  | nil => exact hb
  | cons v l ih =>
    refine ih (fun v hv => hl v (mem_cons_of_mem _ hv)) ?_
    by_cases hreads : v.stamp ≠ 0 ∧ v.Reads start stop s.1 o ∧ o < v.size
    · rw [readItem_byte_of_reads hreads.1 hreads.2.1 hreads.2.2]
      exact hl v mem_cons_self
    · by_cases hstamp : v.stamp = 0
      · unfold readItem
        rw [if_pos hstamp, hb]
      · rw [readItem_byte_of_not fun h => not_lt.mp fun hlt => hreads ⟨hstamp, h, hlt⟩, hb]

theorem foldl_readItem_fst {bytes' : FileBytes} (l : List VersionItem) (s' : IntervalTree × (ℕ → UInt8)) (hs : s.1 = s'.1) :
    (l.foldl (readItem bytes start stop) s).1 = (l.foldl (readItem bytes' start stop) s').1 := by
  induction l generalizing s s' with
  | nil => exact hs
  | cons v l ih =>
    refine ih _ ?_
    unfold readItem
    split_ifs
    · exact hs
    · have hsize : (v.file bytes).size = (v.file bytes').size := rfl
      rw [hs]
      exact foldl_readPart_fst hsize _ _ hs

end Item

/-! ## The versions in the order of time -/

namespace VersionChain

variable {c : VersionChain} {k j v : VersionItem} {o : ℕ}

theorem stamp_lt_of_browse (hk : k ∈ c.versions) (hj : j ∈ c.versionBrowseDir k.stamp) : k.stamp < j.stamp := by
  rcases mem_cons.mp hj with rfl | hj
  · exact c.stamp_lt k hk
  · simpa using (mem_filter.mp hj).2

theorem nodup_browse (stamp : ℕ) : ((c.versionBrowseDir stamp).map VersionItem.stamp).Nodup := by
  refine nodup_cons.mpr ⟨fun hmem => ?_, c.nodup.sublist (filter_sublist.map _)⟩
  obtain ⟨v, hv, heq⟩ := mem_map.mp hmem
  exact absurd heq (c.stamp_lt v (mem_filter.mp hv).1).ne

def sorted (c : VersionChain) (stamp : ℕ) : List VersionItem :=
  (c.versionBrowseDir stamp).insertionSort (·.stamp ≤ ·.stamp)

theorem mem_sorted {stamp : ℕ} : j ∈ c.sorted stamp ↔ j ∈ c.versionBrowseDir stamp := mem_insertionSort _

theorem sorted_lt (stamp : ℕ) : (c.sorted stamp).Pairwise (·.stamp < ·.stamp) := by
  have hle : (c.sorted stamp).Pairwise (·.stamp ≤ ·.stamp) := pairwise_insertionSort _ _
  have hperm := perm_insertionSort (fun a b : VersionItem => a.stamp ≤ b.stamp) (c.versionBrowseDir stamp)
  have hne : (c.sorted stamp).Pairwise (·.stamp ≠ ·.stamp) :=
    pairwise_map.mp ((hperm.map _).nodup_iff.mpr (nodup_browse stamp))
  exact (hle.and hne).imp fun h => lt_of_le_of_ne h.1 h.2

theorem untilComplete_sublist (l : List VersionItem) : (untilComplete l).Sublist l := by
  induction l with
  | nil => exact Sublist.slnil
  | cons v l ih =>
    unfold untilComplete
    split_ifs
    · exact (nil_sublist l).cons_cons v
    · exact ih.cons_cons v

theorem mem_untilComplete {l : List VersionItem} (hj : j ∈ l) :
    j ∈ untilComplete l ∨ ∃ A v B, l = A ++ v :: B ∧ v.intervals = none ∧ j ∈ B := by
  induction l with
  | nil => cases hj
  | cons v l ih =>
    unfold untilComplete
    rcases mem_cons.mp hj with rfl | hj
    · left
      split_ifs
      · exact mem_singleton_self j
      · exact mem_cons_self
    · split_ifs with hcomplete
      · exact .inr ⟨[], v, l, rfl, hcomplete, hj⟩
      · rcases ih hj with hin | ⟨A, w, B, rfl, hw, hB⟩
        · exact .inl (mem_cons_of_mem _ hin)
        · exact .inr ⟨v :: A, w, B, rfl, hw, hB⟩

theorem build_cases (c : VersionChain) (k : VersionItem) :
    k.intervals = none ∧ c.versionBuildIntervals k = (.create, []) ∨
      ∃ t, k.intervals = some t ∧ c.versionBuildIntervals k = (t, untilComplete (c.sorted k.stamp)) := by
  unfold versionBuildIntervals
  cases h : k.intervals with
  | none => exact .inl ⟨rfl, rfl⟩
  | some t => exact .inr ⟨t, rfl, rfl⟩

structure Listed (c : VersionChain) (k : VersionItem) (versioned : IntervalTree) (l : List VersionItem) : Prop where
  mem : ∀ v ∈ l, v ∈ c.versionBrowseDir k.stamp
  stamp_lt : ∀ v ∈ l, k.stamp < v.stamp
  sorted : l.Pairwise (·.stamp < ·.stamp)
  own : ∀ o, c.Source k o k ↔ o ∈ versioned
  source : ∀ o j, c.Source k o j → j ≠ k → j ∈ l ∧ o ∉ versioned

theorem source_own (hk : k ∈ c.versions) (h : k.Contains o) (hj : c.Source k o j) : j = k := by
  rcases hj.mem with rfl | hmem
  · rfl
  · exact absurd (hj.first k (.inl rfl) h) (not_le.mpr (stamp_lt_of_browse hk hmem))

theorem listed (hk : k ∈ c.versions) {t : IntervalTree} (ht : k.intervals = some t) :
    c.Listed k t (untilComplete (c.sorted k.stamp)) := by
  have hcontains : ∀ o, k.Contains o ↔ o ∈ t := fun o => by simp [VersionItem.Contains, ht]
  have hsub := untilComplete_sublist (c.sorted k.stamp)
  have hmem : ∀ v ∈ untilComplete (c.sorted k.stamp), v ∈ c.versionBrowseDir k.stamp :=
    fun v hv => mem_sorted.mp (hsub.subset hv)
  refine ⟨hmem, fun v hv => stamp_lt_of_browse hk (hmem v hv), (sorted_lt _).sublist hsub, fun o => ?_, fun o j hj hne => ⟨?_, fun hmem => hne (source_own hk ((hcontains o).mpr hmem) hj)⟩⟩
  · rw [← hcontains]
    refine ⟨Source.contains, fun h => ⟨.inl rfl, h, fun i hi _ => ?_⟩⟩
    rcases hi with rfl | hi
    · exact le_rfl
    · exact (stamp_lt_of_browse hk hi).le
  · have hmem := hj.mem.resolve_left hne
    rcases mem_untilComplete (mem_sorted.mpr hmem) with hin | ⟨A, v, B, heq, hv, hB⟩
    · exact hin
    · -- a complete file before it contains the offset
      have hlt : v.stamp < j.stamp := by
        have hpair := sorted_lt (c := c) k.stamp
        rw [heq] at hpair
        exact (pairwise_cons.mp (pairwise_append.mp hpair).2.1).1 j hB
      have hvmem : v ∈ c.versionBrowseDir k.stamp := mem_sorted.mp (by rw [heq]; simp)
      have hvo : v.Contains o := by simp [VersionItem.Contains, hv]
      exact absurd (hj.first v (.inr hvmem) hvo) (not_le.mpr hlt)

/-! ## The bytes that are read -/

section Read
variable {start stop : ℕ} {bytes : FileBytes} {buf : ℕ → UInt8} {s : IntervalTree × (ℕ → UInt8)}
  {versioned : IntervalTree} {l done : List VersionItem}

structure Progress (c : VersionChain) (k : VersionItem) (start stop : ℕ) (bytes : FileBytes) (versioned : IntervalTree)
    (buf : ℕ → UInt8) (done : List VersionItem) (s : IntervalTree × (ℕ → UInt8)) : Prop where
  outside : ∀ o, ¬ (start ≤ o ∧ o < stop) → s.2 o = buf o
  own : ∀ o ∈ versioned, o ∈ s.1 ∧ s.2 o = buf o
  read : ∀ o j, start ≤ o → o < stop → o < k.size → c.Source k o j → j ≠ k → o < j.size → j ∈ done →
    o ∈ s.1 ∧ s.2 o = bytes j.stamp o
  unread : ∀ o j, start ≤ o → o < stop → o < k.size → c.Source k o j → j ≠ k → o < j.size → j ∉ done → o ∉ s.1

theorem progress_nil (h : c.Listed k versioned l) :
    c.Progress k start stop bytes versioned buf [] (create.add versioned, buf) where
  outside _ _ := rfl
  own o ho := ⟨mem_add.mpr (.inr ho), rfl⟩
  read _ _ _ _ _ _ _ _ hj := by cases hj
  unread o j _ _ _ hj hne _ _ hmem := by
    rcases mem_add.mp hmem with hmem | hmem
    · exact not_mem_create o hmem
    · exact (h.source o j hj hne).2 hmem

theorem Progress.step {rest : List VersionItem} (hl : c.Listed k versioned (done ++ v :: rest))
    (h : c.Progress k start stop bytes versioned buf done s) (hsafe : c.SurplusSafe k start stop s.1 v) :
    c.Progress k start stop bytes versioned buf (done ++ [v]) (readItem bytes start stop s v) := by
  have hstamp : v.stamp ≠ 0 := (Nat.zero_le _).trans_lt (hl.stamp_lt v (by simp)) |>.ne'
  refine ⟨fun o ho => ?_, fun o ho => ?_, fun o j hle hlt hk hj hne hsize hmem => ?_,
    fun o j hle hlt hk hj hne hsize hmem hcov => ?_⟩
  · rw [readItem_byte_of_not fun hreads => ?_, h.outside o ho]
    have hstop : stop ≤ o := not_lt.mp fun hlt => ho ⟨hreads.start_le, hlt⟩
    exact (hsafe o hreads fun hin => ho hin.2).1 hstop
  · rw [readItem_byte_of_mem (h.own o ho).1]
    exact ⟨mem_readItem_of_mem (h.own o ho).1, (h.own o ho).2⟩
  · by_cases hdone : j ∈ done
    · obtain ⟨hcov, hbyte⟩ := h.read o j hle hlt hk hj hne hsize hdone
      rw [readItem_byte_of_mem hcov]
      exact ⟨mem_readItem_of_mem hcov, hbyte⟩
    · have heq : j = v := by
        rcases mem_append.mp hmem with hmem | hmem
        · exact absurd hmem hdone
        · exact mem_singleton.mp hmem
      subst heq
      have hreads := VersionItem.reads_of_contains (h.unread o j hle hlt hk hj hne hsize hdone) hj.contains hle hlt hsize
      exact ⟨(mem_readItem hstamp).mpr (.inr hreads), readItem_byte_of_reads hstamp hreads hsize⟩
  · rw [mem_append, mem_singleton, not_or] at hmem
    rcases (mem_readItem hstamp).mp hcov with hcov | hreads
    · exact h.unread o j hle hlt hk hj hne hsize hmem.1 hcov
    · by_cases hin : v.Contains o
      · -- the version that contains the offset comes before its source
        have hjrest : j ∈ rest := by
          have hjl := (hl.source o j hj hne).1
          rw [mem_append, mem_cons] at hjl
          tauto
        have hlt' : v.stamp < j.stamp := (pairwise_cons.mp (pairwise_append.mp hl.sorted).2.1).1 j hjrest
        exact absurd (hj.first v (.inr (hl.mem v (by simp))) hin) (not_le.mpr hlt')
      · exact absurd ((hsafe o hreads fun h => hin h.1).2 hlt hk j hj) (not_le.mpr hsize)

theorem Progress.all (hl : c.Listed k versioned l)
    (hsafe : ∀ done v rest, l = done ++ v :: rest → c.SurplusSafe k start stop (coveredBy versioned start stop done) v)
    (rest : List VersionItem) (hrest : l = done ++ rest) (hs : s.1 = coveredBy versioned start stop done)
    (h : c.Progress k start stop bytes versioned buf done s) :
    c.Progress k start stop bytes versioned buf l (rest.foldl (readItem bytes start stop) s) := by
  induction rest generalizing done s with
  | nil =>
    rw [append_nil] at hrest
    exact hrest ▸ h
  | cons v rest ih =>
    refine ih (hrest.trans (append_cons ..)) ?_ ((h.step (hrest ▸ hl)) (hs ▸ hsafe done v rest hrest))
    unfold coveredBy at hs ⊢
    rw [foldl_append]
    exact foldl_readItem_fst [v] _ hs

end Read

/-! ## What a surplus does -/

section Surplus
variable {start stop : ℕ} {bytes : FileBytes} {buf : ℕ → UInt8} {versioned : IntervalTree} {done rest : List VersionItem}

theorem foldl_fst_eq_coveredBy (bytes : FileBytes) (buf : ℕ → UInt8) (done : List VersionItem) :
    (done.foldl (readItem bytes start stop) (create.add versioned, buf)).1 = coveredBy versioned start stop done :=
  foldl_readItem_fst done _ rfl

/-- After the version that an offset is read from, its byte stays. -/
theorem read_after (hstamp : v.stamp ≠ 0) (hreads : v.Reads start stop (coveredBy versioned start stop done) o) :
    versionReadOldData bytes versioned (done ++ v :: rest) start stop buf o =
      (readItem bytes start stop (done.foldl (readItem bytes start stop) (create.add versioned, buf)) v).2 o := by
  unfold versionReadOldData
  rw [foldl_append, foldl_cons]
  refine foldl_readItem_of_mem _ ((mem_readItem hstamp).mpr (.inr ?_))
  rw [foldl_fst_eq_coveredBy]
  exact hreads

theorem mem_coveredBy (hl : c.Listed k versioned (done ++ rest)) (hj : j ∈ done) (hcontains : j.Contains o) (hle : start ≤ o)
    (hlt : o < stop) (hsize : o < j.size) : o ∈ coveredBy versioned start stop done := by
  obtain ⟨A, B, rfl⟩ := append_of_mem hj
  have hstamp : j.stamp ≠ 0 := (Nat.zero_le _).trans_lt (hl.stamp_lt j (by simp)) |>.ne'
  unfold coveredBy
  rw [foldl_append, foldl_cons]
  refine mem_foldl_readItem_of_mem _ ((mem_readItem hstamp).mpr ?_)
  by_cases hcov : o ∈ coveredBy versioned start stop A
  · exact .inl hcov
  · exact .inr (VersionItem.reads_of_contains hcov hcontains hle hlt hsize)

theorem read_outside (hl : c.Listed k versioned (done ++ v :: rest)) (hsize : o < v.size)
    (hreads : v.Reads start stop (coveredBy versioned start stop done) o) :
    versionReadOldData (fun _ _ => 1) versioned (done ++ v :: rest) start stop buf o = 1 := by
  have hstamp : v.stamp ≠ 0 := (Nat.zero_le _).trans_lt (hl.stamp_lt v (by simp)) |>.ne'
  rw [read_after hstamp hreads]
  refine readItem_byte_of_reads hstamp ?_ hsize
  rw [foldl_fst_eq_coveredBy]
  exact hreads

theorem read_inside (hl : c.Listed k versioned (done ++ v :: rest)) (hj : c.Source k o j) (hne : j ≠ k) (hsize : o < j.size)
    (hlt : o < stop) (hreads : v.Reads start stop (coveredBy versioned start stop done) o) (hv : ¬ v.Contains o) (hbuf : buf o = 0) :
    versionReadOldData (fun stamp _ => if stamp = j.stamp then 1 else 0) versioned (done ++ v :: rest) start stop buf o = 0 := by
  have hstamp : v.stamp ≠ 0 := (Nat.zero_le _).trans_lt (hl.stamp_lt v (by simp)) |>.ne'
  have hjv : j ≠ v := fun heq => hv (heq ▸ hj.contains)
  have hjdone : j ∉ done := fun hmem => hreads.not_mem (mem_coveredBy hl hmem hj.contains hreads.start_le hlt hsize)
  -- the files up to this version are not the source
  have hother : ∀ i ∈ done ++ [v], i.stamp ≠ j.stamp := by
    intro i hi heq
    have hjl := (hl.source o j hj hne).1
    have hil : i ∈ done ++ v :: rest := by
      rw [append_cons]
      exact mem_append_left _ hi
    have hnodup : ((done ++ v :: rest).map VersionItem.stamp).Nodup := pairwise_map.mpr (hl.sorted.imp ne_of_lt)
    have hij := inj_on_of_nodup_map hnodup hil hjl heq
    subst hij
    rcases mem_append.mp hi with hi | hi
    · exact hjdone hi
    · exact hjv (mem_singleton.mp hi)
  rw [read_after hstamp hreads]
  have hfold : ((done ++ [v]).foldl (readItem (fun stamp _ => if stamp = j.stamp then 1 else 0) start stop)
      (create.add versioned, buf)).2 o = 0 :=
    foldl_readItem_const _ (fun i hi => if_neg (hother i hi)) hbuf
  rwa [foldl_append] at hfold

end Surplus

/-! ## Reading a version -/

section Range
variable {offset count : ℕ} {bytes : FileBytes} {buf : ℕ → UInt8}

theorem store_own (k : VersionItem) (bytes : FileBytes) (offset count : ℕ) (buf : ℕ → UInt8) (o : ℕ) :
    store buf offset ((k.file bytes).read offset count) o =
      if (offset ≤ o ∧ o < offset + count) ∧ o < k.size then bytes k.stamp o else buf o := by
  rw [store_read]
  change (if (offset ≤ o ∧ o < offset + count) ∧ o < k.size then (k.file bytes).byte o else buf o) = _
  split_ifs with hin
  · exact if_pos hin.2
  · rfl

theorem zfsRead_eq (h : offset < k.size) : c.zfsRead bytes k offset count buf =
    versionReadOldData bytes (c.versionBuildIntervals k).1 (c.versionBuildIntervals k).2 offset (offset + count)
      (store buf offset ((k.file bytes).read offset count)) := by
  unfold zfsRead
  dsimp only
  split_ifs with hlist
  · rfl
  · have hnil : (c.versionBuildIntervals k).2 = [] := by
      by_contra hne
      exact hlist ⟨h, hne⟩
    rw [hnil]
    rfl

theorem readRight_of_le (h : k.size ≤ offset) : c.ReadRight k offset count bytes buf where
  inside o j hle _ hlt := by omega
  outside o ho := by
    unfold zfsRead
    dsimp only
    rw [if_neg fun hlist => absurd hlist.1 (not_lt.mpr h), store_own, if_neg fun hin => ho hin.1]

theorem readRight_of_complete (hk : k ∈ c.versions) (h : k.intervals = none) (hlt : offset < k.size) :
    c.ReadRight k offset count bytes buf := by
  rcases c.build_cases k with ⟨-, hbuild⟩ | ⟨t, ht, -⟩
  · have hread : ∀ o, c.zfsRead bytes k offset count buf o = store buf offset ((k.file bytes).read offset count) o := by
      intro o
      rw [zfsRead_eq hlt, hbuild]
      rfl
    refine ⟨fun o j hle hstop hsize hj _ => ?_, fun o ho => ?_⟩
    · have hcontains : k.Contains o := by simp [VersionItem.Contains, h]
      rw [hread, store_own, if_pos ⟨⟨hle, hstop⟩, hsize⟩, source_own hk hcontains hj]
    · rw [hread, store_own, if_neg fun hin => ho hin.1]
  · rw [h] at ht
    cases ht

theorem readRight_of_safe (hk : k ∈ c.versions) (hsafe : c.ReadSafe k offset count) : c.ReadRight k offset count bytes buf := by
  by_cases hlt : offset < k.size
  · rcases c.build_cases k with ⟨hnone, -⟩ | ⟨t, ht, hbuild⟩
    · exact readRight_of_complete hk hnone hlt
    · have hsafe := hsafe hlt
      have hl := listed hk ht
      rw [hbuild] at hsafe
      have hall : c.Progress k offset (offset + count) bytes t (store buf offset ((k.file bytes).read offset count))
          (untilComplete (c.sorted k.stamp)) ((untilComplete (c.sorted k.stamp)).foldl (readItem bytes offset (offset + count))
            (create.add t, store buf offset ((k.file bytes).read offset count))) :=
        Progress.all hl hsafe _ (nil_append _).symm rfl (progress_nil hl)
      refine ⟨fun o j hle hstop hsize hj hjsize => ?_, fun o ho => ?_⟩
      · rw [zfsRead_eq hlt, hbuild]
        by_cases hjk : j = k
        · subst hjk
          refine (hall.own o ((hl.own o).mp hj)).2.trans ?_
          rw [store_own, if_pos ⟨⟨hle, hstop⟩, hsize⟩]
        · exact (hall.read o j hle hstop hsize hj hjk hjsize (hl.source o j hj hjk).1).2
      · rw [zfsRead_eq hlt, hbuild]
        refine (hall.outside o ho).trans ?_
        rw [store_own, if_neg fun hin => ho hin.1]
  · exact readRight_of_le (not_lt.mp hlt)

theorem safe_of_readRight (hk : k ∈ c.versions) (h : ∀ bytes buf, c.ReadRight k offset count bytes buf) :
    c.ReadSafe k offset count := by
  intro hlt done v rest hlist o hreads hnot
  rcases c.build_cases k with ⟨-, hbuild⟩ | ⟨t, ht, hbuild⟩
  · rw [hbuild] at hlist
    simp at hlist
  · have hl := listed hk ht
    rw [hbuild] at hlist hreads
    dsimp only at hlist hreads
    rw [hlist] at hl
    -- the read with given bytes
    have hread : ∀ bytes buf, c.zfsRead bytes k offset count buf o = versionReadOldData bytes t (done ++ v :: rest) offset
        (offset + count) (store buf offset ((k.file bytes).read offset count)) o := by
      intro bytes buf
      rw [zfsRead_eq hlt, hbuild, hlist]
    refine ⟨fun hstop => not_lt.mp fun hsize => ?_, fun hstop hk' j hj => not_lt.mp fun hsize => ?_⟩
    · have hone := (h (fun _ _ => 1) (fun _ => 0)).outside o fun hin => absurd hin.2 (not_lt.mpr hstop)
      rw [hread, read_outside hl hsize hreads] at hone
      exact absurd hone (by decide)
    · have hne : j ≠ k := by
        rintro rfl
        exact hreads.not_mem (mem_foldl_readItem_of_mem _ (mem_add.mpr (.inr ((hl.own o).mp hj))))
      have hone := (h (fun stamp _ => if stamp = j.stamp then 1 else 0) (fun _ => 0)).inside o j hreads.start_le hstop hk' hj hsize
      have hstamp := hl.stamp_lt j (hl.source o j hj hne).1
      rw [hread, read_inside hl hj hne hsize hstop hreads fun hv => hnot ⟨hv, hreads.start_le, hstop⟩, if_pos rfl] at hone
      · exact absurd hone (by decide)
      · rw [store_own]
        split_ifs with hin heq
        · exact absurd heq hstamp.ne
        · rfl
        · rfl

end Range

/-- The version 1 of a file of 30 bytes has the last 10 bytes. -/
def lateVersion : VersionItem := ⟨1, 30, some (create.insert 20 30 (by decide))⟩

def lateChain : VersionChain := ⟨[lateVersion], 30, by decide, by decide⟩

end VersionChain

end ZFS
