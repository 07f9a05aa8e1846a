import ZlomekFS.Proofs.Blocks
import ZlomekFS.Proofs.FileTrees
import ZlomekFS.Spec.UpdateFile

/-! `update_file_blocks` with a master whose file does not change. The proofs follow the update range
by range: an invariant of the file that every range keeps holds at the end. -/

namespace ZFS
open Spans List

/-! ## The cursor into the blocks -/

/-- The blocks before the cursor end before `offset`. -/
def Passed (blocks : List Span) (j offset : ℕ) : Prop := ∀ b ∈ blocks.take j, b.stop < offset

variable {blocks : List Span}

theorem Passed.mono {j o o' : ℕ} (h : Passed blocks j o) (ho : o ≤ o') : Passed blocks j o' :=
  fun b hb => (h b hb).trans_le ho

theorem Passed.advance {j o : ℕ} (h : Passed blocks j o) :
    Passed blocks (advance blocks o j) o ∧ ∀ b, blocks[ZFS.advance blocks o j]? = some b → o ≤ b.stop := by
  refine ⟨?_, fun b hb => ?_⟩
  · intro b hb
    unfold ZFS.advance at hb
    rw [take_add, mem_append] at hb
    rcases hb with hb | hb
    · exact h b hb
    · rw [← prefix_iff_eq_take.mp ( takeWhile_prefix _)] at hb
      simpa using all_eq_true.mp all_takeWhile b hb
  · have hnil := takeWhile_drop_advance blocks o j
    have hdrop : (blocks.drop (ZFS.advance blocks o j)).head? = some b := by rw [head?_drop, hb]
    obtain ⟨tail, htail⟩ := head?_eq_some_iff.mp hdrop
    rw [htail, takeWhile_cons] at hnil
    split_ifs at hnil with hlt
    simpa using hlt

theorem Passed.find {size j o : ℕ} {b : Span} (h : Passed blocks j o)
    (hj : ∀ d, blocks[j]? = some d → o ≤ d.stop) (hb : b ∈ blocks) (hstart : b.start ≤ o) (hstop : o < b.stop)
    (ho : o < size) (hs : blocks.Pairwise fun a b => a.stop ≤ b.start ∧ Apart size a b) : blocks[j]? = some b := by
  obtain ⟨m, hm, rfl⟩ := mem_iff_getElem.mp hb
  have hjm : j ≤ m := by
    by_contra hlt
    have := h blocks[m] (mem_take_iff_getElem.mpr ⟨m, by omega, rfl⟩)
    omega
  rcases hjm.eq_or_lt with rfl | hlt
  · exact getElem?_eq_getElem hm
  · have hd := hj _ (getElem?_eq_getElem (hlt.trans hm))
    obtain ⟨hle, hapart⟩ := pairwise_iff_getElem.mp hs j m (hlt.trans hm) hm hlt
    unfold Apart at hapart
    omega

/-! ## The data of a range -/

theorem mergeRange_of_inside {data : FlatFile UInt8} {offset j : ℕ} {buf : List UInt8} {b : Span}
    (hb : blocks[j]? = some b) (hstart : b.start ≤ offset) (hstop : offset + buf.length ≤ b.stop) :
    mergeRange blocks data offset j buf = buf := by
  simp [mergeRange, hb, hstart, hstop]

theorem mergeRange_of_not_inside {data : FlatFile UInt8} {offset j : ℕ} {buf : List UInt8}
    (hj : ∀ b, blocks[j]? = some b → offset ≤ b.stop)
    (hnot : ∀ b, blocks[j]? = some b → ¬ (b.start ≤ offset ∧ offset + buf.length ≤ b.stop)) :
    mergeRange blocks data offset j buf =
      data.read offset buf.length ++ buf.drop (data.read offset buf.length).length := by
  have hcopy (buf2 : List UInt8) : copyBlocks blocks offset j buf buf2 = buf2 := by
    have : (blocks.drop j).takeWhile (·.stop < offset) = [] := by
      cases hd : blocks.drop j with
      | nil => rfl
      | cons b tail =>
        have hb : blocks[j]? = some b := by rw [← head?_drop, hd, head?_cons]
        rw [takeWhile_cons_of_neg (by simpa using hj b hb)]
    simp [copyBlocks, this]
  unfold mergeRange
  simp only [hcopy]
  split
  · rename_i b hb
    rw [if_neg (hnot b hb)]
  · rfl

theorem length_mergeRange (data : FlatFile UInt8) {offset j : ℕ} (buf : List UInt8)
    (hj : ∀ b, blocks[j]? = some b → offset ≤ b.stop) : (mergeRange blocks data offset j buf).length = buf.length := by
  by_cases hin : ∃ b, blocks[j]? = some b ∧ b.start ≤ offset ∧ offset + buf.length ≤ b.stop
  · obtain ⟨b, hb, hstart, hstop⟩ := hin
    rw [mergeRange_of_inside hb hstart hstop]
  · rw [mergeRange_of_not_inside hj fun b hb h => hin ⟨b, hb, h⟩]
    simp only [length_append, length_drop, FlatFile.length_read]
    omega

/-! ## The ranges of a request -/

/-- What a file of `size` bytes has of the range. -/
def Chunk.clip (size : ℕ) (c : Chunk) : Chunk := ⟨c.offset, min c.length (size - c.offset)⟩

def ranges (size : ℕ) (args : List Chunk) : List Chunk := (args.map (Chunk.clip size)).filter (0 < ·.length)

theorem mem_ranges {size : ℕ} {args : List Chunk} {c : Chunk} :
    c ∈ ranges size args ↔ 0 < c.length ∧ ∃ k ∈ args, k.clip size = c := by
  simp [ranges, and_comm]

theorem ranges_append (size : ℕ) (args args' : List Chunk) :
    ranges size (args ++ args') = ranges size args ++ ranges size args' := by
  simp [ranges]

theorem ranges_sorted {size : ℕ} {args : List Chunk} (h : args.Pairwise (·.offset ≤ ·.offset)) :
    (ranges size args).Pairwise (·.offset ≤ ·.offset) :=
  (h.map (Chunk.clip size) fun _ _ h => h).filter _

section
variable {α : Type} (md5 : List UInt8 → α)

def sumOf (data : FlatFile UInt8) (c : Chunk) : Chunk × α := (c, md5 (data.read c.offset c.length))

theorem localMd5sum_eq (data : FlatFile UInt8) (args : List Chunk) :
    localMd5sum md5 data args = (ranges data.size args).map (sumOf md5 data) := by
  have hf : (fun c : Chunk => ((⟨c.offset, (data.read c.offset c.length).length⟩ : Chunk),
      md5 (data.read c.offset c.length))) = sumOf md5 data ∘ Chunk.clip data.size := by
    funext c
    simp [sumOf, Chunk.clip, FlatFile.read]
  unfold localMd5sum ranges
  rw [hf, filter_map, filter_map, map_map]
  rfl

/-- The answers of a master that has the file `remote` with the given version the whole time; it may
fail. -/
structure Consistent (remote : FlatFile UInt8) (version : ℕ) (env : UpdEnv α) : Prop where
  md5sum : ∀ args, env.md5sum args = .ok ⟨remote.size, version, localMd5sum md5 remote args⟩ ∨
    ∃ r, env.md5sum args = .error r ∧ r.1 ≠ ZFS_CHANGED
  read : ∀ c, env.read c = .ok (remote.read c.offset c.length) ∨ ∃ r, env.read c = .fails r ∧ r.1 ≠ ZFS_CHANGED

def honest (remote : FlatFile UInt8) (version : ℕ) : UpdEnv α where
  md5sum args := .ok ⟨remote.size, version, localMd5sum md5 remote args⟩
  read c := .ok (remote.read c.offset c.length)
  busy _ := false

theorem honest_consistent (remote : FlatFile UInt8) (version : ℕ) :
    Consistent md5 remote version (honest md5 remote version) :=
  ⟨fun _ => Or.inl rfl, fun _ => Or.inl rfl⟩

end

/-! ## The rule for an update -/

inductive RangeStep (remote : FlatFile UInt8) (blocks : List Span) (c : Chunk) (fh : InternalFh) : InternalFh → Prop
  | same (h : fh.data.read c.offset c.length = remote.read c.offset c.length) :
    RangeStep remote blocks c fh (fh.markSame c)
  | fetch (j : ℕ) (hpassed : Passed blocks j c.offset) (hj : ∀ b, blocks[j]? = some b → c.offset ≤ b.stop) :
    RangeStep remote blocks c fh
      ((fh.localWrite c.offset (mergeRange blocks fh.data c.offset j (remote.read c.offset c.length))).appendInterval
        .updated c.offset (c.offset + (remote.read c.offset c.length).length) (Nat.le_add_right _ _))

/-- An invariant `I` of the file that every range with `Q` keeps; `D` holds of a range from then on. -/
structure RangeRule (remote : FlatFile UInt8) (version : ℕ) (blocks : List Span) (Q : Chunk → Prop)
    (I : InternalFh → Prop) (D : Chunk → InternalFh → Prop) : Prop where
  step : ∀ c fh fh', Q c → I fh → RangeStep remote blocks c fh fh' → I fh' ∧ D c fh' ∧ ∀ c', D c' fh → D c' fh'
  flush : ∀ fh, I fh → I (fh.flushDeleted .modified) ∧ ∀ c, D c fh → D c (fh.flushDeleted .modified)
  size : ∀ fh, I fh → fh.attr.size = remote.size ∧ fh.data.size = remote.size
  version : ∀ fh, I fh → fh.attr.version = fh.metadata.masterVersion → fh.metadata.masterVersion = version
  sane : ∀ c, Q c → c.length ≤ ZFS_MAXDATA ∧ c.offset + c.length ≤ remote.size

/-- The ranges `rs` are processed between `s` and `u`. -/
structure Progress (blocks : List Span) (I : InternalFh → Prop) (D : Chunk → InternalFh → Prop) (rs : List Chunk)
    (s u : Upd) : Prop where
  inv : I u.fh
  done : ∀ c ∈ rs, D c u.fh
  keep : ∀ c, D c s.fh → D c u.fh
  passed : ∀ m, Passed blocks s.j m → (∀ c ∈ rs, c.offset ≤ m) → Passed blocks u.j m

theorem Progress.trans {I : InternalFh → Prop} {D : Chunk → InternalFh → Prop}
    {rs rs' : List Chunk} {s t u : Upd} (h : Progress blocks I D rs s t) (h' : Progress blocks I D rs' t u) :
    Progress blocks I D (rs ++ rs') s u := by
  refine ⟨h'.inv, ?_, fun c hc => h'.keep c (h.keep c hc), ?_⟩
  · intro c hc
    rcases mem_append.mp hc with hc | hc
    · exact h'.keep c (h.done c hc)
    · exact h'.done c hc
  · intro m hp hm
    exact h'.passed m (h.passed m hp fun c hc => hm c (by simp [hc])) fun c hc => hm c (by simp [hc])

/-- How a part of the update ends for the ranges `rs`; without failures it succeeds. -/
structure Outcome (flawless : Prop) (blocks : List Span) (I : InternalFh → Prop) (D : Chunk → InternalFh → Prop)
    (rs : List Chunk) (s u : Upd) : Prop where
  unchanged : u.code ≠ ZFS_CHANGED
  ok : u.code = ZFS_OK → Progress blocks I D rs s u
  flawless : flawless → u.code = ZFS_OK

section
variable {P : Prop} {I : InternalFh → Prop} {D : Chunk → InternalFh → Prop} {rs rs' : List Chunk} {s t u : Upd}

theorem Outcome.refl (hcode : s.code = ZFS_OK) (hI : I s.fh) (hD : ∀ c ∈ rs, D c s.fh) : Outcome P blocks I D rs s s :=
  ⟨by rw [hcode]; decide, fun _ => ⟨hI, hD, fun _ h => h, fun _ h _ => h⟩, fun _ => hcode⟩

theorem Outcome.seq (h : Outcome P blocks I D rs s t) (h' : t.code = ZFS_OK → Outcome P blocks I D rs' t u) :
    Outcome P blocks I D (rs ++ rs') s (if t.code = ZFS_OK then u else t) := by
  split_ifs with hcode
  · exact ⟨(h' hcode).unchanged, fun hu => (h.ok hcode).trans ((h' hcode).ok hu), (h' hcode).flawless⟩
  · exact ⟨h.unchanged, fun hok => absurd hok hcode, h.flawless⟩

end

section
variable {α : Type} {md5 : List UInt8 → α} {remote : FlatFile UInt8} {version : ℕ} {blocks : List Span}
  {Q : Chunk → Prop} {I : InternalFh → Prop} {D : Chunk → InternalFh → Prop} {env : UpdEnv α} {slow : Bool}

/-- The master answers everything and nothing waits for the line. -/
def Flawless (md5 : List UInt8 → α) (remote : FlatFile UInt8) (version : ℕ) (env : UpdEnv α) (slow : Bool) : Prop :=
  env = honest md5 remote version ∧ slow = false

theorem fetchRange_rule (hrule : RangeRule remote version blocks Q I D) (henv : Consistent md5 remote version env)
    {c : Chunk} (hQ : Q c) {s : Upd} (hI : I s.fh) (hp : Passed blocks s.j c.offset) :
    Outcome (Flawless md5 remote version env slow) blocks I D [c] s (fetchRange env slow blocks s c) := by
  obtain ⟨hp', hj⟩ := hp.advance
  have htake : (remote.read c.offset c.length).take c.length = remote.read c.offset c.length := by
    rw [take_of_length_le]
    simp
  unfold fetchRange
  simp only
  split_ifs with hbusy
  · refine ⟨show ZFS_SLOW_BUSY ≠ ZFS_CHANGED by decide,
      fun h => absurd h (show ZFS_SLOW_BUSY ≠ ZFS_OK by decide), ?_⟩
    rintro ⟨rfl, rfl⟩
    simp at hbusy
  · rcases henv.read c with hread | ⟨r, hread, hr⟩
    · simp only [hread, htake]
      refine ⟨show ZFS_OK ≠ ZFS_CHANGED by decide, fun _ => ?_, fun _ => rfl⟩
      obtain ⟨hI', hD, hkeep⟩ := hrule.step c s.fh _ hQ hI (.fetch _ hp' hj)
      exact ⟨hI', by simpa using hD, hkeep, fun m _ hm => hp'.mono (hm c (by simp))⟩
    · simp only [hread]
      refine ⟨hr, fun h => absurd h r.2, ?_⟩
      rintro ⟨rfl, -⟩
      simp [honest] at hread

variable [DecidableEq α]

theorem sameRange_sumOf (hmd5 : Function.Injective md5) (data : FlatFile UInt8) (c : Chunk) :
    sameRange (some (sumOf md5 data c)) (sumOf md5 remote c) = true ↔
      data.read c.offset c.length = remote.read c.offset c.length := by
  simp [sameRange, sumOf, hmd5.eq_iff]

theorem markRanges_rule (hrule : RangeRule remote version blocks Q I D) (hmd5 : Function.Injective md5)
    {data : FlatFile UInt8} {rs : List Chunk} (hQ : ∀ c ∈ rs, Q c) {fh : InternalFh} (hI : I fh)
    (hdata : fh.data = data) :
    ∃ fh', markRanges (rs.map (sumOf md5 data)) (rs.map (sumOf md5 remote)) fh = (ZFS_OK, fh') ∧ I fh' ∧
      (∀ c ∈ rs, data.read c.offset c.length = remote.read c.offset c.length → D c fh') ∧
      ∀ c, D c fh → D c fh' := by
  induction rs generalizing fh with
  | nil => exact ⟨fh, rfl, hI, by simp, fun _ h => h⟩
  | cons c rs ih =>
    have hQ' : ∀ c ∈ rs, Q c := fun c hc => hQ c (mem_cons_of_mem _ hc)
    simp only [map_cons, markRanges, sameRange_sumOf hmd5]
    rw [if_neg (by simp [sumOf])]
    split_ifs with hsame
    · obtain ⟨hI', hD, hkeep⟩ := hrule.step c fh _ (hQ c mem_cons_self) hI (.same (by rw [hdata, hsame]))
      obtain ⟨fh', hrun, hI'', hall, hkeep'⟩ := ih hQ' hI' (by simpa [sumOf] using hdata)
      refine ⟨fh', hrun, hI'', ?_, fun c h => hkeep' c (hkeep c h)⟩
      intro c' hc' heq
      rcases mem_cons.mp hc' with rfl | hc'
      · exact hkeep' c' hD
      · exact hall c' hc' heq
    · obtain ⟨fh', hrun, hI', hall, hkeep⟩ := ih hQ' hI hdata
      refine ⟨fh', hrun, hI', ?_, hkeep⟩
      intro c' hc' heq
      rcases mem_cons.mp hc' with rfl | hc'
      · exact absurd heq hsame
      · exact hall c' hc' heq

variable (slow) (hrule : RangeRule remote version blocks Q I D) (hmd5 : Function.Injective md5)
  (henv : Consistent md5 remote version env)

include hrule hmd5 henv

theorem fetchRanges_rule (data : FlatFile UInt8) {rs : List Chunk}
    (hQ : ∀ c ∈ rs, Q c) (hs : rs.Pairwise (·.offset ≤ ·.offset)) {s : Upd} (hcode : s.code = ZFS_OK) (hI : I s.fh)
    (hp : ∀ c ∈ rs, Passed blocks s.j c.offset)
    (hsame : ∀ c ∈ rs, data.read c.offset c.length = remote.read c.offset c.length → D c s.fh) :
    Outcome (Flawless md5 remote version env slow) blocks I D rs s
      (fetchRanges env slow blocks remote.size (rs.map (sumOf md5 remote)) (rs.map (sumOf md5 data)) s) := by
  induction rs generalizing s with
  | nil =>
    simp only [map_nil, fetchRanges]
    exact .refl hcode hI (by simp)
  | cons c rs ih =>
    obtain ⟨hc, hs⟩ := pairwise_cons.mp hs
    obtain ⟨hlen, hend⟩ := hrule.sane c (hQ c mem_cons_self)
    obtain ⟨t, ht⟩ : ∃ t, t = if sameRange (some (sumOf md5 data c)) (sumOf md5 remote c) then s
      else fetchRange env slow blocks s c := ⟨_, rfl⟩
    have hstep : Outcome (Flawless md5 remote version env slow) blocks I D [c] s t := by
      rw [ht]
      split_ifs with heq
      · rw [sameRange_sumOf hmd5] at heq
        exact .refl hcode hI (by simpa using hsame c mem_cons_self heq)
      · exact fetchRange_rule hrule henv (hQ c mem_cons_self) hI (hp c mem_cons_self)
    have hunfold : fetchRanges env slow blocks remote.size ((c :: rs).map (sumOf md5 remote))
        ((c :: rs).map (sumOf md5 data)) s = if t.code = ZFS_OK then
          fetchRanges env slow blocks remote.size (rs.map (sumOf md5 remote)) (rs.map (sumOf md5 data)) t else t := by
      rw [ht, map_cons, fetchRanges, if_neg (by simp only [sumOf]; omega)]
      rfl
    rw [hunfold]
    refine hstep.seq fun htcode => ?_
    have hprog := hstep.ok htcode
    exact ih (fun c hc => hQ c (mem_cons_of_mem _ hc)) hs htcode hprog.inv
      (fun c' hc' => hprog.passed _ (hp c' (mem_cons_of_mem _ hc')) (by simpa using hc c' hc'))
      (fun c' hc' heq => hprog.keep c' (hsame c' (mem_cons_of_mem _ hc') heq))

section
variable {args : List Chunk} (hQ : ∀ c ∈ ranges remote.size args, Q c) (hs : args.Pairwise (·.offset ≤ ·.offset))
  {s : Upd} (hI : I s.fh) (hp : ∀ c ∈ ranges remote.size args, Passed blocks s.j c.offset)

include hQ hs hI hp

theorem compareSums_rule : Outcome (Flawless md5 remote version env slow) blocks I D (ranges remote.size args) s
      (compareSums env slow blocks s.fh s.j (localMd5sum md5 s.fh.data args)
        ⟨remote.size, version, localMd5sum md5 remote args⟩) := by
  obtain ⟨hasize, hdsize⟩ := hrule.size s.fh hI
  have hversion := hrule.version s.fh hI
  obtain ⟨fh, hmark, hI', hsame, hkeep⟩ := markRanges_rule hrule hmd5 hQ hI rfl
  have hfetch := fetchRanges_rule slow hrule hmd5 henv s.fh.data hQ (ranges_sorted hs)
    (s := ⟨ZFS_OK, fh, s.j⟩) rfl hI' hp hsame
  have hclear : ¬ (s.fh.attr.version = s.fh.metadata.masterVersion ∧ s.fh.metadata.masterVersion ≠ version) :=
    fun h => h.2 (hversion h.1)
  simp only [compareSums, if_neg hclear, hasize, ne_eq, not_true_eq_false, if_false, localMd5sum_eq, hdsize, hmark,
    if_true]
  generalize fetchRanges env slow blocks remote.size _ _ _ = u at hfetch
  split_ifs with hcode
  · have hprog := hfetch.ok hcode
    obtain ⟨hI'', hD⟩ := hrule.flush u.fh hprog.inv
    exact ⟨hfetch.unchanged, fun _ => ⟨hI'', fun c hc => hD c (hprog.done c hc),
      fun c hc => hD c (hprog.keep c (hkeep c hc)), hprog.passed⟩, hfetch.flawless⟩
  · exact ⟨hfetch.unchanged, fun h => absurd h hcode, hfetch.flawless⟩

theorem updateFileBlocks1_rule : Outcome (Flawless md5 remote version env slow) blocks I D (ranges remote.size args) s
      (updateFileBlocks1 md5 env slow blocks args s) := by
  rcases henv.md5sum args with hsum | ⟨r, hsum, hr⟩
  · simp only [updateFileBlocks1, hsum]
    split_ifs with hnil
    · rw [localMd5sum_eq, map_eq_nil_iff] at hnil
      rw [hnil]
      exact ⟨show ZFS_OK ≠ ZFS_CHANGED by decide, fun _ => ⟨hI, by simp, fun _ h => h, fun _ h _ => h⟩,
        fun _ => rfl⟩
    · exact compareSums_rule slow hrule hmd5 henv hQ hs hI hp
  · simp only [updateFileBlocks1, hsum]
    refine ⟨hr, fun h => absurd h r.2, ?_⟩
    rintro ⟨rfl, -⟩
    simp [honest] at hsum

end

theorem updateBatches_rule {batches : List (List Chunk)}
    (hQ : ∀ c ∈ ranges remote.size batches.flatten, Q c) (hs : batches.flatten.Pairwise (·.offset ≤ ·.offset))
    {s : Upd} (hcode : s.code = ZFS_OK) (hI : I s.fh)
    (hp : ∀ c ∈ ranges remote.size batches.flatten, Passed blocks s.j c.offset) :
    Outcome (Flawless md5 remote version env slow) blocks I D (ranges remote.size batches.flatten) s
      (updateBatches md5 env slow blocks batches s) := by
  induction batches generalizing s with
  | nil => exact .refl hcode hI (by simp [ranges])
  | cons args rest ih =>
    simp only [flatten_cons, ranges_append, mem_append] at hQ hs hp ⊢
    obtain ⟨hs1, hs2, hs12⟩ := pairwise_append.mp hs
    have hfirst := updateFileBlocks1_rule slow hrule hmd5 henv (fun c hc => hQ c (Or.inl hc)) hs1 hI
      (fun c hc => hp c (Or.inl hc))
    rw [updateBatches]
    generalize updateFileBlocks1 md5 env slow blocks args s = t at hfirst
    rw [if_neg hfirst.unchanged]
    refine hfirst.seq fun htcode => ?_
    have hprog := hfirst.ok htcode
    refine ih (fun c hc => hQ c (Or.inr hc)) hs2 htcode hprog.inv fun c hc =>
      hprog.passed _ (hp c (Or.inr hc)) fun c' hc' => ?_
    obtain ⟨-, k, hk, rfl⟩ := mem_ranges.mp hc
    obtain ⟨-, k', hk', rfl⟩ := mem_ranges.mp hc'
    exact hs12 k' hk' k hk

end

/-! ## A version of the master that is not expected -/

/-- `update_file_blocks_1` clears the updated tree of a file that is not modified for a new version. -/
def InternalFh.clearFor (fh : InternalFh) (version : ℕ) : InternalFh :=
  if fh.attr.version = fh.metadata.masterVersion ∧ fh.metadata.masterVersion ≠ version then
    fh.updateFileClearUpdatedTree1 version
  else fh

theorem clearFor_spec (fh : InternalFh) (version : ℕ) :
    (fh.clearFor version).data = fh.data ∧ (fh.clearFor version).attr.size = fh.attr.size ∧
      ((fh.clearFor version).attr.version = (fh.clearFor version).metadata.masterVersion →
        (fh.clearFor version).metadata.masterVersion = version) := by
  unfold InternalFh.clearFor
  split_ifs with h
  · exact ⟨fh.updateFileClearUpdatedTree1_data version, fh.updateFileClearUpdatedTree1_size version,
      fun _ => fh.updateFileClearUpdatedTree1_masterVersion version⟩
  · exact ⟨rfl, rfl, fun heq => by_contra fun hne => h ⟨heq, hne⟩⟩

section
variable {α : Type} [DecidableEq α] {md5 : List UInt8 → α} {remote : FlatFile UInt8} {version : ℕ}
  {blocks : List Span} {env : UpdEnv α} {slow : Bool}

theorem compareSums_clearFor (fh : InternalFh) (j : ℕ) (locals : List (Chunk × α)) (reply : Md5Res α) :
    compareSums env slow blocks fh j locals reply =
      compareSums env slow blocks (fh.clearFor reply.version) j locals reply := by
  obtain ⟨-, hsize, hversion⟩ := clearFor_spec fh reply.version
  have hidem : ¬ ((fh.clearFor reply.version).attr.version = (fh.clearFor reply.version).metadata.masterVersion ∧
      (fh.clearFor reply.version).metadata.masterVersion ≠ reply.version) := fun h => h.2 (hversion h.1)
  conv_rhs => unfold compareSums
  simp only [if_neg hidem, hsize]
  rfl

/-- Nothing happens, or the update is the one that starts with the cleared tree. -/
theorem updateBatches_clearFor (slow : Bool) (blocks : List Span) (henv : Consistent md5 remote version env)
    (batches : List (List Chunk)) (fh : InternalFh) (j : ℕ) :
    let u := updateBatches md5 env slow blocks batches ⟨ZFS_OK, fh, j⟩
    let v := updateBatches md5 env slow blocks batches ⟨ZFS_OK, fh.clearFor version, j⟩
    u.code = v.code ∧ (u.code = ZFS_OK → if ranges remote.size batches.flatten = [] then u.fh = fh else u = v) := by
  induction batches with
  | nil => exact ⟨rfl, fun _ => rfl⟩
  | cons args rest ih =>
    rw [flatten_cons, ranges_append]
    rcases henv.md5sum args with hsum | ⟨r, hsum, hr⟩
    · have hfirst (fh : InternalFh) : updateFileBlocks1 md5 env slow blocks args ⟨ZFS_OK, fh, j⟩ =
          if ranges remote.size args = [] then ⟨ZFS_OK, fh, j⟩ else
            compareSums env slow blocks fh j (localMd5sum md5 fh.data args)
              ⟨remote.size, version, localMd5sum md5 remote args⟩ := by
        simp only [updateFileBlocks1, hsum]
        rw [localMd5sum_eq md5 remote]
        simp only [map_eq_nil_iff]
      by_cases hnil : ranges remote.size args = []
      · have hok : ¬ ZFS_OK = ZFS_CHANGED := by decide
        simp only [updateBatches, hfirst, if_pos hnil, if_neg hok, if_true]
        rw [hnil, nil_append]
        exact ih
      · have heq : updateBatches md5 env slow blocks (args :: rest) ⟨ZFS_OK, fh, j⟩ =
            updateBatches md5 env slow blocks (args :: rest) ⟨ZFS_OK, fh.clearFor version, j⟩ := by
          rw [updateBatches, updateBatches, hfirst, hfirst, if_neg hnil, if_neg hnil, (clearFor_spec fh version).1,
            compareSums_clearFor]
        simp only [heq, append_eq_nil_iff, hnil, false_and, if_false]
        exact ⟨trivial, fun _ => trivial⟩
    · simp only [updateBatches, updateFileBlocks1, hsum, if_neg hr, if_neg r.2]
      exact ⟨trivial, fun h => absurd h r.2⟩

end

end ZFS
