import ZlomekFS.Proofs.FileTrees
import ZlomekFS.Spec.UpdateFile

/-! Reading a file that is not completely updated. `zfs_read` looks only at the ends of the range it
was asked for, and it reads the local file also if the master could not be asked. So the bytes it
returns are known to be up to date, whatever the master does, only if there was nothing to do. -/

namespace ZFS
open Spans

/-- The call does not return a byte that is neither updated nor modified. -/
def ReadRes.Fresh (res : ReadRes) (offset : ℕ) : Prop :=
  res.code = ZFS_OK → ∀ k < res.bytes.length, offset + k ∈ res.fh.updated ∨ offset + k ∈ res.fh.modified

/-- The test of `zfs_read` finds no block, and there is none to find in the file. -/
def ReadSafe (fh : InternalFh) (offset count : ℕ) : Prop :=
  readComplete offset (u64 (offset + count)) (fh.readBlocks offset count) = true ∧
    ∀ i, offset ≤ i → i < offset + count → i < fh.data.size → i ∈ fh.updated ∨ i ∈ fh.modified

theorem localRead_fresh {fh : InternalFh} {offset count : ℕ} :
    (localRead fh offset count).Fresh offset ↔
      ∀ i, offset ≤ i → i < offset + count → i < fh.data.size → i ∈ fh.updated ∨ i ∈ fh.modified := by
  simp only [ReadRes.Fresh, localRead, FlatFile.length_read, true_implies]
  constructor
  · intro h i hi hc hs
    have := h (i - offset) (by omega)
    rwa [Nat.add_sub_cancel' hi] at this
  · intro h k hk
    exact h _ (by omega) (by omega) (by omega)

theorem getBlocksForUpdating_start {fh : InternalFh} {start stop : ℕ} {b : Span}
    (h : b ∈ fh.getBlocksForUpdating start stop) :
    start ≤ b.start ∧ b.start ∉ fh.updated ∧ b.start ∉ fh.modified := by
  obtain ⟨x, hx, hb⟩ := List.mem_flatMap.mp h
  have hu := fh.updated.complement_spec start stop
  have hm := fh.modified.complement_spec x.start x.stop
  have hbx := hm.start_le b hb
  refine ⟨(hu.start_le x hx).trans hbx, ?_, ?_⟩
  · exact hu.not_mem b.start ⟨x, hx, hbx, hm.lt_stop b hb⟩
  · exact hm.not_mem b.start ⟨b, hb, le_rfl, hm.lt b hb⟩

theorem readComplete_false {offset offset2 : ℕ} {blocks : List Span}
    (h : readComplete offset offset2 blocks = false) : ∃ b ∈ blocks, b.start ≤ offset ∨ b.start < offset2 := by
  induction blocks with
  | nil => simp [readComplete] at h
  | cons b blocks ih =>
    unfold readComplete at h
    split_ifs at h with h1 h2 h3
    · exact ⟨b, by simp, Or.inl h2.1⟩
    · exact ⟨b, by simp, Or.inr h3.1⟩
    · obtain ⟨c, hc, hlt⟩ := ih h
      exact ⟨c, by simp [hc], hlt⟩

/-- If the test finds a block then a byte of the range is missing. -/
theorem missing_of_incomplete {fh : InternalFh} {offset count : ℕ} (hcount : 0 < count)
    (h : readComplete offset (u64 (offset + count)) (fh.readBlocks offset count) = false) :
    ∃ i, offset ≤ i ∧ i < offset + count ∧ i ∉ fh.updated ∧ i ∉ fh.modified := by
  obtain ⟨b, hb, hlt⟩ := readComplete_false h
  obtain ⟨hle, hu, hm⟩ := getBlocksForUpdating_start hb
  have hu64 : u64 (offset + count) ≤ offset + count := Nat.mod_le _ _
  exact ⟨b.start, hle, by omega, hu, hm⟩

/-! ## A master that grows the file -/

/-- An answer of a master with a larger file for a range that no longer can be read. -/
def growEnv {α : Type} (s : α) (size version : ℕ) (c : Chunk) : UpdEnv α where
  md5sum := fun _ => .ok ⟨size, version, [(c, s)]⟩
  read := fun _ => .changed 0
  busy := fun _ => false

theorem step_count_pos (c : Chunking) (x : Span) : 0 < (c.step x).1.args.count := by
  unfold Chunking.step
  by_cases hj : c.args.joins x.start = true
  · simp only [hj, if_true]
    simp only [Md5Args.joins, Bool.and_eq_true, decide_eq_true_eq] at hj
    exact hj.1.1
  · simp only [hj, Bool.false_eq_true, if_false]
    exact Nat.succ_pos _

theorem block_count_pos (fuel : ℕ) (c : Chunking) (x : Span) : 0 < (Chunking.block (fuel + 1) c x).args.count := by
  induction fuel generalizing c x with
  | zero =>
    simp only [Chunking.block, ite_self]
    exact step_count_pos c x
  | succ fuel ih =>
    rw [Chunking.block]
    simp only
    split_ifs
    · exact ih _ _
    · exact step_count_pos c x

theorem chunkBatches_ne_nil (junk : ℕ → ℕ) {blocks : List Span} (h : blocks ≠ []) :
    chunkBatches junk blocks ≠ [] := by
  obtain ⟨init, x, rfl⟩ := (List.eq_nil_or_concat' blocks).resolve_left h
  unfold chunkBatches
  simp only [List.foldl_append, List.foldl_cons, List.foldl_nil]
  rw [if_pos (block_count_pos _ _ _)]
  simp

/-- A range that differs in its length from the first local one. -/
def otherRange {α : Type} (locals : List (Chunk × α)) : Chunk :=
  match locals with
  | [] => ⟨0, 1⟩
  | l :: _ => ⟨l.1.offset, if l.1.length = 1 then 2 else 1⟩

theorem otherRange_spec {α : Type} (locals : List (Chunk × α)) :
    (otherRange locals).length ≤ ZFS_MAXDATA ∧
      ∀ l ∈ locals.head?, l.1.offset = (otherRange locals).offset ∧ l.1.length ≠ (otherRange locals).length := by
  cases locals with
  | nil => simp [otherRange, ZFS_MAXDATA]
  | cons l locals =>
    simp only [otherRange, ZFS_MAXDATA, List.head?_cons, Option.mem_some_iff, forall_eq', true_and]
    split_ifs <;> omega

section
variable {α : Type} [DecidableEq α] {fh : InternalFh}

/-- The range differs from the first local one, so the master is asked for it and the update ends. -/
theorem compareSums_grow (size j : ℕ) {c : Chunk} (s : α) {locals : List (Chunk × α)} (blocks : List Span)
    (hsize : fh.attr.size ≠ size) (hlen : c.length ≤ ZFS_MAXDATA) (hend : c.offset + c.length ≤ size)
    (hhead : ∀ l ∈ locals.head?, l.1.offset = c.offset ∧ l.1.length ≠ c.length) :
    compareSums (growEnv s size fh.metadata.masterVersion c) false blocks fh j locals
      ⟨size, fh.metadata.masterVersion, [(c, s)]⟩ =
      ⟨ZFS_CHANGED, (fh.truncateLocalFile size).updateFileClearUpdatedTree1 0, advance blocks c.offset j⟩ := by
  have hrange : ¬ (ZFS_MAXDATA < c.length ∨ size < c.offset + c.length) := by omega
  cases locals with
  | nil =>
    simp [compareSums, hsize, markRanges, fetchRanges, hrange, sameRange, fetchRange, growEnv, ZFS_CHANGED, ZFS_OK]
  | cons l locals =>
    obtain ⟨ho, hl⟩ := hhead l (by simp)
    simp [compareSums, hsize, markRanges, fetchRanges, hrange, sameRange, fetchRange, growEnv, ho, hl,
      ZFS_CHANGED, ZFS_OK]

/-- Growing the file adds the bytes up to `size`, none of which is modified. -/
theorem truncateLocalFile_grow {size i : ℕ} (hsize : fh.attr.size < size) (hlt : i < size) (hm : i ∉ fh.modified) :
    i < (fh.truncateLocalFile size).data.size ∧ i ∉ (fh.truncateLocalFile size).modified ∧
      (fh.truncateLocalFile size).users = fh.users := by
  have htarget : size ≤ fh.truncateTarget size := le_max_left _ _
  unfold InternalFh.truncateLocalFile
  rw [if_neg (by omega)]
  refine ⟨?_, ?_, InternalFh.adoptSize_users _ _ _⟩
  · rw [InternalFh.adoptSize_data]
    exact hlt.trans_le htarget
  · rw [InternalFh.adoptSize_modified, IntervalTree.mem_deleteFrom]
    exact fun h => hm h.1

/-- Some master makes the update succeed with a byte in the file that is still missing. -/
theorem updateFileBlocks_grow (md5 : List UInt8 → α) {blocks : List Span} {i : ℕ} (hblocks : blocks ≠ [])
    (husers : 0 < fh.users) (hm : i ∉ fh.modified) :
    ∃ (env : UpdEnv α) (u : Upd), updateFileBlocks md5 env false blocks (fun _ => 0) fh = u ∧ u.code = ZFS_OK ∧
      i < u.fh.data.size ∧ i ∉ u.fh.updated ∧ i ∉ u.fh.modified := by
  obtain ⟨args, rest, hbatch⟩ := List.exists_cons_of_ne_nil (chunkBatches_ne_nil (fun _ => 0) hblocks)
  obtain ⟨hlen, hhead⟩ := otherRange_spec (localMd5sum md5 fh.data args)
  set c := otherRange (localMd5sum md5 fh.data args)
  obtain ⟨size, hi, hsize, hend⟩ : ∃ size, i < size ∧ fh.attr.size < size ∧ c.offset + c.length ≤ size :=
    ⟨i + fh.attr.size + 1 + c.offset + c.length, by omega, by omega, by omega⟩
  obtain ⟨hdata, hmod, hu⟩ := truncateLocalFile_grow hsize hi hm
  have hfirst : updateFileBlocks1 md5 (growEnv (md5 []) size fh.metadata.masterVersion c) false blocks args
      ⟨ZFS_OK, fh, 0⟩ =
      ⟨ZFS_CHANGED, (fh.truncateLocalFile size).updateFileClearUpdatedTree1 0, advance blocks c.offset 0⟩ :=
    compareSums_grow size 0 (md5 []) blocks hsize.ne hlen hend hhead
  refine ⟨growEnv (md5 []) size fh.metadata.masterVersion c,
    ⟨ZFS_OK, (fh.truncateLocalFile size).updateFileClearUpdatedTree1 0, advance blocks c.offset 0⟩, ?_, rfl, ?_, ?_, ?_⟩
  · rw [updateFileBlocks, hbatch, updateBatches, hfirst]
    rfl
  · rwa [InternalFh.updateFileClearUpdatedTree1_data]
  · rwa [InternalFh.mem_updateFileClearUpdatedTree1_updated (by omega)]
  · rwa [InternalFh.updateFileClearUpdatedTree1_modified]

theorem zfsRead_length (md5 : List UInt8 → α) (env : UpdEnv α) (opened : Option Err) (junk : ℕ → ℕ)
    (fh : InternalFh) (offset count : ℕ) : (zfsRead md5 env opened junk fh offset count).bytes.length ≤ count := by
  have hlocal (fh : InternalFh) : (localRead fh offset count).bytes.length ≤ count := by simp [localRead]
  unfold zfsRead
  cases opened with
  | some r =>
    simp only
    split_ifs
    · exact Nat.zero_le _
    · exact hlocal _
    · exact hlocal _
  | none =>
    simp only
    split_ifs
    · exact Nat.zero_le _
    · exact hlocal _
    · exact hlocal _
    · exact Nat.zero_le _

theorem not_fresh_of_incomplete (md5 : List UInt8 → α) (husers : 0 < fh.users) {offset count : ℕ}
    (hpos : 0 < count) (hle : ¬ ZFS_MAXDATA < count)
    (hcomp : readComplete offset (u64 (offset + count)) (fh.readBlocks offset count) = false) :
    ∃ env opened junk, ¬ (zfsRead md5 env opened junk fh offset count).Fresh offset := by
  obtain ⟨i, hi, hlt, hu, hm⟩ := missing_of_incomplete hpos hcomp
  by_cases hdata : i < fh.data.size
  · -- the file cannot be opened at the master, the local data is read
    refine ⟨growEnv (md5 []) 0 0 ⟨0, 0⟩, some ⟨1, by decide⟩, fun _ => 0, ?_⟩
    simp only [zfsRead, hle, hcomp, if_false, Bool.false_eq_true]
    rw [localRead_fresh]
    intro h
    exact (h i hi hlt hdata).elim hu hm
  · have hblocks : fh.readBlocks offset count ≠ [] := by
      intro h
      simp [h, readComplete] at hcomp
    obtain ⟨env, u, hrun, hcode, hsize, hu', hm'⟩ := updateFileBlocks_grow md5 hblocks husers hm
    refine ⟨env, none, fun _ => 0, ?_⟩
    simp only [zfsRead, hle, hcomp, if_false, Bool.false_eq_true, hrun, hcode, if_true]
    rw [localRead_fresh]
    intro h
    exact (h i hi hlt hsize).elim hu' hm'

end

/-- A cached file of eight bytes of which the bytes 2 and 3 were not updated yet. -/
def holed : InternalFh :=
  { InternalFh.synced [1, 2, 0, 0, 5, 6, 7, 8] with
    updated := (IntervalTree.create.insert 0 2 (by decide)).insert 4 8 (by decide) }

end ZFS
