import ZlomekFS.Proofs.UpdateBlocks

/-! The update part of `update_file` between files of different sizes. A complete file is the remote
one with the local modifications over it, exactly if the local data between the end of the remote
file and the last modification was zero before: `truncate_local_file` keeps that data and records it
as updated. -/

namespace ZFS
open Spans InternalFh

/-- The byte that a complete file is to have: zero after the end of the remote file. -/
def mergedByte (fh : InternalFh) (remote : FlatFile UInt8) (i : ℕ) : UInt8 :=
  if i ∈ fh.modified then fh.data.byte i else remote.byte i

/-- `data` is the remote file with the modifications of `fh`. -/
structure Merged (fh : InternalFh) (remote data : FlatFile UInt8) : Prop where
  size : data.size = max remote.size fh.modified.reach
  byte : ∀ i, data.byte i = mergedByte fh remote i

/-- Only bytes of the blocks that the master has change, and those recorded have arrived. -/
structure Copied (remote : FlatFile UInt8) (blocks : List Span) (fh fh' : InternalFh) : Prop where
  size : fh'.data.size = fh.data.size
  byte : ∀ i, fh'.data.byte i = fh.data.byte i ∨
    i < remote.size ∧ Covers blocks i ∧ fh'.data.byte i = remote.byte i
  updated : ∀ i ∈ fh'.updated, i ∈ fh.updated ∨ fh'.data.byte i = remote.byte i

/-- The local data after the end of the remote file is zero up to the last modification. -/
def ZeroTail (fh : InternalFh) (size : ℕ) : Prop :=
  ∀ i, size ≤ i → i < fh.modified.reach → i ∉ fh.modified → fh.data.byte i = 0

/-- The cached file that an update of the size `remote.size` starts from. -/
structure UpdateStart (fh : InternalFh) (remote : FlatFile UInt8) : Prop where
  attr : fh.attr.size = fh.data.size
  inside : fh.modified.reach ≤ fh.data.size
  fresh : ∀ i ∈ fh.updated, i ∉ fh.modified → i < remote.size → fh.data.byte i = remote.byte i

variable {remote : FlatFile UInt8} {fh : InternalFh}

theorem Toward.copied {blocks : List Span} {fh fh' : InternalFh}
    (h : Toward remote blocks fh fh') (hsize : fh.data.size = remote.size) : Copied remote blocks fh fh' := by
  refine ⟨h.size, fun i => ?_, h.updated⟩
  rcases lt_or_ge i remote.size with hi | hi
  · exact (h.byte i).imp_right fun hb => ⟨hi, hb⟩
  · left
    rw [fh.data.beyond i (by omega), fh'.data.beyond i (by rw [h.size]; omega)]

theorem truncateLocalFile_data (hattr : fh.attr.size = fh.data.size) (size : ℕ) :
    (fh.truncateLocalFile size).data = fh.data.truncate (fh.truncateTarget size) := by
  unfold truncateLocalFile
  split_ifs with h
  · rw [h, hattr, FlatFile.truncate_self]
  · rw [adoptSize_data]

theorem mem_truncateLocalFile_modified {size i : ℕ} :
    i ∈ (fh.truncateLocalFile size).modified ↔ i ∈ fh.modified := by
  unfold truncateLocalFile
  split_ifs
  · exact Iff.rfl
  · rw [adoptSize_modified, IntervalTree.mem_deleteFrom]
    refine and_iff_left_of_imp fun h => ?_
    exact (IntervalTree.lt_reach h).trans_le (le_max_right _ _)

theorem mem_truncateLocalFile_updated {size i : ℕ}
    (h : i ∈ (fh.truncateLocalFile size).updated) : i ∈ fh.updated ∨ size ≤ i := by
  unfold truncateLocalFile at h
  split_ifs at h
  · exact Or.inl h
  · rw [mem_adoptSize_updated] at h
    exact h.imp And.left And.left

theorem zeroTail_iff_truncated (h : UpdateStart fh remote) :
    ZeroTail fh remote.size ↔ ∀ i, remote.size ≤ i → i ∉ fh.modified →
      (fh.truncateLocalFile remote.size).data.byte i = 0 := by
  have htarget : fh.truncateTarget remote.size = max remote.size fh.modified.reach := rfl
  rw [truncateLocalFile_data h.attr]
  constructor
  · intro hz i hi hm
    rw [FlatFile.byte_truncate]
    split_ifs with hlt
    · exact hz i hi (by omega) hm
    · rfl
  · intro hz i hi hlt hm
    rw [← hz i hi hm, FlatFile.byte_truncate_of_lt _ (by omega)]

/-- The bytes that `truncate_local_file` records as updated are right, unless it returns early,
exactly if the tail was zero where nothing was recorded. -/
theorem truncateLocalFile_records_iff (h : UpdateStart fh remote) :
    (∀ i ∈ (fh.truncateLocalFile remote.size).updated, i ∉ fh.updated →
      (fh.truncateLocalFile remote.size).data.byte i = mergedByte fh remote i) ↔
      fh.truncateTarget remote.size = fh.attr.size ∨
        ∀ i, remote.size ≤ i → i < fh.modified.reach → i ∉ fh.modified → i ∉ fh.updated → fh.data.byte i = 0 := by
  have htarget : fh.truncateTarget remote.size = max remote.size fh.modified.reach := rfl
  rw [truncateLocalFile_data h.attr]
  by_cases hearly : fh.truncateTarget remote.size = fh.attr.size
  · have hfh : fh.truncateLocalFile remote.size = fh := by rw [truncateLocalFile, if_pos hearly]
    rw [hfh]
    exact ⟨fun _ => Or.inl hearly, fun _ i hi hnot => absurd hi hnot⟩
  · rw [truncateLocalFile, if_neg hearly]
    simp only [mem_adoptSize_updated, hearly, false_or]
    constructor
    · intro hright i hi hlt hm hu
      have := hright i (Or.inr ⟨hi, by omega⟩) hu
      rw [FlatFile.byte_truncate_of_lt _ (by omega), mergedByte, if_neg hm, remote.beyond i hi] at this
      exact this
    · intro hz i hi hu
      have hi : remote.size ≤ i ∧ i < fh.truncateTarget remote.size := hi.resolve_left fun h => hu h.1
      rw [FlatFile.byte_truncate_of_lt _ hi.2, mergedByte]
      split_ifs with hm
      · rfl
      · rw [remote.beyond i hi.1]
        exact hz i hi.1 (by omega) hm hu

/-- A complete file that was copied correctly is right exactly if the tail was zero. -/
theorem Copied.merged_iff {fh fh' : InternalFh} (h : UpdateStart fh remote)
    (hcopy : Copied remote ((fh.truncateLocalFile remote.size).getBlocksForUpdating 0 remote.size)
      (fh.truncateLocalFile remote.size) fh') (hcov : fh'.updated.covered 0 remote.size = true) :
    Merged fh remote fh'.data ↔ ZeroTail fh remote.size := by
  have htarget : fh.truncateTarget remote.size = max remote.size fh.modified.reach := rfl
  have htail (i : ℕ) (hi : remote.size ≤ i) :
      fh'.data.byte i = (fh.truncateLocalFile remote.size).data.byte i :=
    (hcopy.byte i).resolve_right fun hb => by omega
  have hkeep (i : ℕ) (hi : i < fh.truncateTarget remote.size) :
      (fh.truncateLocalFile remote.size).data.byte i = fh.data.byte i := by
    rw [truncateLocalFile_data h.attr, FlatFile.byte_truncate_of_lt _ hi]
  rw [zeroTail_iff_truncated h]
  constructor
  · intro hm i hi hnot
    rw [← htail i hi, hm.byte i, mergedByte, if_neg hnot, remote.beyond i hi]
  · intro hz
    refine ⟨?_, fun i => ?_⟩
    · rw [hcopy.size, truncateLocalFile_data h.attr, FlatFile.size_truncate, htarget]
    · unfold mergedByte
      split_ifs with hm
      · -- the blocks leave the modifications out
        have hlt := IntervalTree.lt_reach hm
        rw [← hkeep i (by omega)]
        refine (hcopy.byte i).resolve_right fun hb => ?_
        exact not_mem_modified_of_blocks hb.2.1 (mem_truncateLocalFile_modified.mpr hm)
      · rcases lt_or_ge i remote.size with hi | hi
        · rcases hcopy.updated i (IntervalTree.covered_mem hcov (Nat.zero_le i) hi) with hu | hu
          · have hu := (mem_truncateLocalFile_updated hu).resolve_right (by omega)
            rcases hcopy.byte i with hb | hb
            · rw [hb, hkeep i (by omega), h.fresh i hu hm hi]
            · exact hb.2.2
          · exact hu
        · rw [htail i hi, hz i hi hm, remote.beyond i hi]

section
variable {α : Type} [DecidableEq α]

/-- The update part of `update_file`, if its blocks are copied correctly: what `truncate_local_file`
records is right, and a file marked as complete is right, exactly if the tail was zero. -/
theorem updatePart_merged_iff (md5 : List UInt8 → α) (env : UpdEnv α) (slow : Bool) (junk : ℕ → ℕ) {fh : InternalFh}
    {remote : FlatFile UInt8} (h : UpdateStart fh remote) (hcopy : let fh₁ := fh.truncateLocalFile remote.size
      let blocks := fh₁.getBlocksForUpdating 0 remote.size
      blocks ≠ [] → Copied remote blocks fh₁ (updateFileBlocks md5 env slow blocks junk fh₁).fh) :
    ((∀ i ∈ (fh.truncateLocalFile remote.size).updated, i ∉ fh.updated →
        (fh.truncateLocalFile remote.size).data.byte i = mergedByte fh remote i) ↔
      fh.truncateTarget remote.size = fh.attr.size ∨
        ∀ i, remote.size ≤ i → i < fh.modified.reach → i ∉ fh.modified → i ∉ fh.updated → fh.data.byte i = 0) ∧
    ((updatePart md5 env slow junk fh remote.size).2.updated.covered 0 remote.size = true →
      (updatePart md5 env slow junk fh remote.size).2.metadata.complete = true ∧
      (Merged fh remote (updatePart md5 env slow junk fh remote.size).2.data ↔ ZeroTail fh remote.size)) := by
  refine ⟨truncateLocalFile_records_iff h, ?_⟩
  have hcopy' : Copied remote ((fh.truncateLocalFile remote.size).getBlocksForUpdating 0 remote.size)
      (fh.truncateLocalFile remote.size)
      (updateMissing md5 env slow junk (fh.truncateLocalFile remote.size) remote.size).fh := by
    unfold updateMissing
    simp only
    split_ifs with hnil
    · exact ⟨rfl, fun _ => Or.inl rfl, fun _ hi => Or.inl hi⟩
    · exact hcopy hnil
  unfold updatePart
  simp only
  split_ifs with hcov
  · refine fun _ => ⟨rfl, Copied.merged_iff h ⟨hcopy'.size, hcopy'.byte, hcopy'.updated⟩ hcov⟩
  · exact fun h => absurd h hcov

end

theorem updateStart_missing : UpdateStart eightMissing (filled 8 1) :=
  ⟨rfl, by decide, fun i hi => by simp [eightMissing] at hi⟩

/-- The master has eight other bytes: they are copied as one block and the file is complete. -/
theorem updatePart_merged_missing : UpdateStart eightMissing (filled 8 1) ∧
    Merged eightMissing (filled 8 1) (updatePart (fun bytes => bytes) (honest (fun bytes => bytes) (filled 8 1) 1) false
      (fun _ => 0) eightMissing 8).2.data := by
  refine ⟨updateStart_missing, ((updatePart_merged_iff (fun bytes => bytes) (honest (fun bytes => bytes) (filled 8 1) 1)
    false (fun _ => 0) updateStart_missing ?_).2 (by decide +kernel)).2.mpr ?_⟩
  · have hblocks : (eightMissing.truncateLocalFile 8).getBlocksForUpdating 0 8 = [⟨0, 8⟩] := by decide +kernel
    have hclear : (eightMissing.truncateLocalFile 8).clearFor 1 = eightMissing.truncateLocalFile 8 := by
      rw [clearFor, if_neg (by decide)]
    have hone : BlocksOk [⟨0, 8⟩] := ⟨by decide, by decide, by decide⟩
    intro fh₁ blocks _
    obtain ⟨hok, hrun⟩ := updateFileBlocks_toward (eightMissing.truncateLocalFile 8) false (fun _ => 0)
      (fun _ _ h => h) hone (by simp) (honest_consistent (fun bytes => bytes) (filled 8 1) 1) rfl rfl (by decide)
    obtain ⟨fh1', hfh1', htoward, -⟩ := hrun (hok ⟨rfl, rfl⟩)
    rw [if_pos ⟨⟨0, 8⟩, by simp, by decide⟩, hclear] at hfh1'
    subst hfh1'
    change Copied _ ((eightMissing.truncateLocalFile 8).getBlocksForUpdating 0 8) _
      (updateFileBlocks _ _ _ ((eightMissing.truncateLocalFile 8).getBlocksForUpdating 0 8) _ _).fh
    rw [hblocks]
    exact htoward.copied rfl
  · intro i _ hi _
    exact absurd hi (Nat.not_lt_zero i)

/-- The cached file has ten bytes 7 of which the first four are updated and one byte is modified. -/
def tailed : InternalFh :=
  { synced [7, 7, 7, 7, 7, 7, 7, 7, 7, 7] with
    metadata.complete := false
    metadata.localVersion := 2
    attr.version := 2
    updated := (IntervalTree.create.insert 0 4 (by decide)).insert 8 9 (by decide)
    modified := IntervalTree.create.insert 8 9 (by decide) }

/-- With a remote file of four bytes 7 the old bytes between its end and the modification stay, they
are recorded as updated, and the file is complete. -/
theorem updatePart_keeps_tail :
    let fh := (updatePart (fun bytes => bytes) (honest (fun bytes => bytes) (filled 4 7) 1) false (fun _ => 0) tailed 4).2
    UpdateStart tailed (filled 4 7) ∧ (tailed.truncateLocalFile 4).getBlocksForUpdating 0 4 = [] ∧
      fh.updated.covered 0 4 = true ∧ fh.metadata.complete = true ∧ fh.data.size = 9 ∧ 4 ∉ tailed.modified ∧
      4 ∈ (tailed.truncateLocalFile 4).updated ∧ fh.data.byte 4 = 7 ∧ (filled 4 7).byte 4 = 0 := by
  refine ⟨⟨rfl, by decide, ?_⟩, by decide +kernel⟩
  intro i _ _ hi
  have hi : i < 4 := hi
  interval_cases i <;> rfl

end ZFS
