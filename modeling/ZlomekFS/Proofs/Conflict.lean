import ZlomekFS.Spec.FileOps
import ZlomekFS.Spec.Synchronize

/-! When both sides changed a file since the last synchronisation, `synchronize_file` must end in a
conflict directory. It does so exactly when no one-sided synchronisation of the attributes spoils
the versions that the conflict test reads afterwards. -/

namespace ZFS

/-- The local and the remote file are in a conflict directory and nothing is scheduled. -/
def SyncRes.Represented (s : SyncRes) (masterFh : ZfsFh) : Prop :=
  s.scheduled = false ∧ ∃ others, s.place = .conflict others ∧ ∃ m ∈ others, m.fh = masterFh

theorem mem_addFileToConflictDir (others : List Member) (fh : ZfsFh) (attr : Fattr) :
    ⟨fh, attr⟩ ∈ addFileToConflictDir others fh attr := by
  induction others with
  | nil => simp [addFileToConflictDir]
  | cons m others ih =>
    unfold addFileToConflictDir
    split_ifs
    · simp
    · simp
    · exact List.mem_cons_of_mem _ ih

theorem detectConflict_represented (masterFh : ZfsFh) (fh : InternalFh) (attr : Fattr) (place : Place)
    (lc rc schedule : Bool) (hreg : fh.attr.type = .reg) (hrei : fh.reintegrating = false) :
    (detectConflict masterFh fh attr place lc rc schedule).Represented masterFh ↔
      lc = true ∧ rc = true ∨
        fh.metadata.masterVersion < fh.attr.version ∧ fh.metadata.masterVersion < attr.version := by
  unfold detectConflict
  rw [if_neg (by simp [hrei])]
  by_cases h : (lc && rc || fh.attr.type = .reg && fh.metadata.masterVersion < fh.attr.version &&
      fh.metadata.masterVersion < attr.version) = true
  · rw [if_pos h]
    refine iff_of_true ⟨rfl, _, rfl, _, mem_addFileToConflictDir _ _ _, rfl⟩ ?_
    simpa [hreg] using h
  · rw [if_neg h]
    refine iff_of_false (fun hr => ?_) (by simpa [hreg] using h)
    obtain ⟨-, others, ho, -⟩ := hr
    simp at ho

variable {env : SyncEnv} {fh : InternalFh} {attr : Fattr}

theorem synchronizePlace_samePlace {masterFh : ZfsFh}
    {place : Place} {lc rc schedule samePlace : Bool}
    (h : (synchronizePlace env masterFh fh attr place lc rc schedule samePlace).samePlace = true) :
    synchronizePlace env masterFh fh attr place lc rc schedule samePlace =
      if samePlace then detectConflict masterFh fh attr place lc rc schedule
      else detectConflict masterFh fh env.lookup.2.2 place lc
        (metadataAttrChange fh.metadata env.lookup.2.2) schedule := by
  unfold synchronizePlace at h ⊢
  split_ifs with hs
  · rfl
  · rw [if_neg hs] at h
    simp only at h ⊢
    split_ifs at h ⊢
    rfl

/-- The metadata after the attributes of the local file were sent to the master. -/
def pushedMetadata (fh : InternalFh) (reply : Fattr) : Metadata :=
  { fh.metadata with
    masterVersion := reply.version
    mode := getMode fh.attr.mode
    uid := fh.attr.uid
    gid := fh.attr.gid }

/-- The states in which the conflict survives the synchronisation of the attributes: no side or
both sides changed them, or they are already equal; or they were sent to the master, the remote
file is looked up once more, and it differs again from what the reply said. -/
def KeepsConflict (env : SyncEnv) (fh : InternalFh) (attr : Fattr) (samePlace : Bool) : Prop :=
  localChanged fh attr = remoteChanged fh attr ∨
  localChanged fh attr = true ∧ metadataAttrEq fh.attr attr = true ∨
  localChanged fh attr = true ∧ samePlace = false ∧
    (metadataAttrChange (pushedMetadata fh env.setattr.2) env.lookup.2.2 = true ∨
      env.setattr.2.version < fh.attr.version ∧ env.setattr.2.version < env.lookup.2.2.version)

instance (env : SyncEnv) (fh : InternalFh) (attr : Fattr) (samePlace : Bool) :
    Decidable (KeepsConflict env fh attr samePlace) := inferInstanceAs (Decidable (_ ∨ _))

theorem synchronizePlace_represented {masterFh : ZfsFh}
    {place : Place} {lc rc schedule samePlace : Bool} (hreg : fh.attr.type = .reg)
    (hrei : fh.reintegrating = false) (hlocal : fh.metadata.masterVersion < fh.attr.version)
    (hremote : fh.metadata.masterVersion < attr.version)
    (hlookup : fh.metadata.masterVersion < env.lookup.2.2.version)
    (hs : (synchronizePlace env masterFh fh attr place lc rc schedule samePlace).samePlace = true) :
    (synchronizePlace env masterFh fh attr place lc rc schedule samePlace).Represented masterFh := by
  rw [synchronizePlace_samePlace hs]
  split_ifs
  · exact (detectConflict_represented _ _ _ _ _ _ _ hreg hrei).mpr (Or.inr ⟨hlocal, hremote⟩)
  · exact (detectConflict_represented _ _ _ _ _ _ _ hreg hrei).mpr (Or.inr ⟨hlocal, hlookup⟩)

theorem synchronizeFile_of_eq {masterFh : ZfsFh}
    {place : Place} {schedule samePlace : Bool} (h : localChanged fh attr = remoteChanged fh attr) :
    synchronizeFile env masterFh fh attr place schedule samePlace =
      synchronizePlace env masterFh fh attr place (localChanged fh attr) (remoteChanged fh attr)
        schedule samePlace := by
  simp [synchronizeFile, h]

/-- One side changed and the call got through: the attributes were synchronised first. -/
theorem synchronizeFile_of_ne {masterFh : ZfsFh}
    {place : Place} {schedule samePlace : Bool} (h : localChanged fh attr ≠ remoteChanged fh attr)
    (hplace : (synchronizeFile env masterFh fh attr place schedule samePlace).samePlace = true) :
    let s := synchronizeAttributes env fh attr (localChanged fh attr)
    s.code = ZFS_OK ∧ s.gone = false ∧
      synchronizeFile env masterFh fh attr place schedule samePlace =
        synchronizePlace env masterFh s.fh s.attr place (localChanged fh attr) (remoteChanged fh attr)
          schedule samePlace := by
  have hx : (localChanged fh attr ^^ remoteChanged fh attr) = true := by simpa using h
  unfold synchronizeFile at hplace ⊢
  simp only [hx, if_true] at hplace ⊢
  split_ifs at hplace ⊢ with hc hg
  exact ⟨by simpa using hc, by simpa using hg, rfl⟩

theorem finishAttributes_of_not_gone
    (h : (finishAttributes env fh attr).gone = false) :
    finishAttributes env fh attr = ⟨ZFS_OK, false, { fh with
      metadata.mode := getMode fh.attr.mode
      metadata.uid := fh.attr.uid
      metadata.gid := fh.attr.gid }, attr⟩ := by
  unfold finishAttributes at h ⊢
  split_ifs at h ⊢
  rfl

/-- Attributes sent to the master: the recorded master version is the one of the reply. -/
theorem synchronizeAttributes_push
    (hne : metadataAttrEq fh.attr attr = false)
    (hcode : (synchronizeAttributes env fh attr true).code = ZFS_OK)
    (hgone : (synchronizeAttributes env fh attr true).gone = false) :
    (synchronizeAttributes env fh attr true).fh = { fh with metadata := pushedMetadata fh env.setattr.2 } ∧
      (synchronizeAttributes env fh attr true).attr = env.setattr.2 := by
  simp only [synchronizeAttributes, if_true, hne, Bool.false_eq_true, if_false] at hcode hgone ⊢
  by_cases hr : env.setattr.1 = ZFS_OK
  · rw [if_neg (not_not.mpr hr)] at hgone ⊢
    rw [finishAttributes_of_not_gone hgone]
    exact ⟨rfl, rfl⟩
  · rw [if_pos hr] at hcode
    exact absurd hcode hr

/-- Attributes taken from the master: the version of the cached attributes is lost. -/
theorem synchronizeAttributes_pull
    (hcode : (synchronizeAttributes env fh attr false).code = ZFS_OK)
    (hgone : (synchronizeAttributes env fh attr false).gone = false) :
    (synchronizeAttributes env fh attr false).fh.attr.version = 0 ∧
      (synchronizeAttributes env fh attr false).fh.attr.type = fh.attr.type ∧
      (synchronizeAttributes env fh attr false).fh.reintegrating = fh.reintegrating := by
  simp only [synchronizeAttributes, Bool.false_eq_true, if_false] at hcode hgone ⊢
  by_cases hr : env.localSetattr = ZFS_OK
  · rw [if_neg (not_not.mpr hr)] at hgone ⊢
    rw [finishAttributes_of_not_gone hgone]
    exact ⟨rfl, rfl, rfl⟩
  · rw [if_pos hr] at hcode
    exact absurd hcode hr

/-- A modify-modify conflict that reaches `synchronize_file` is represented exactly when the
synchronisation of the attributes keeps it. -/
theorem synchronizeFile_represented_iff (env : SyncEnv) (masterFh : ZfsFh) (fh : InternalFh)
    (attr : Fattr) (place : Place) (schedule samePlace : Bool) (hreg : fh.attr.type = .reg)
    (hrei : fh.reintegrating = false) (hlocal : fh.metadata.masterVersion < fh.attr.version)
    (hremote : fh.metadata.masterVersion < attr.version)
    (hlookup : fh.metadata.masterVersion < env.lookup.2.2.version)
    (hok : (synchronizeFile env masterFh fh attr place schedule samePlace).code = ZFS_OK)
    (hplace : (synchronizeFile env masterFh fh attr place schedule samePlace).samePlace = true) :
    (synchronizeFile env masterFh fh attr place schedule samePlace).Represented masterFh ↔
      KeepsConflict env fh attr samePlace := by
  by_cases heq : localChanged fh attr = remoteChanged fh attr
  · rw [synchronizeFile_of_eq heq] at hplace ⊢
    exact iff_of_true (synchronizePlace_represented hreg hrei hlocal hremote hlookup hplace)
      (Or.inl heq)
  obtain ⟨hcode, hgone, hfile⟩ := synchronizeFile_of_ne heq hplace
  rw [hfile] at hplace ⊢
  cases hlc : localChanged fh attr with
  | false =>
    -- the remote attributes were taken over: version 0 is above no recorded version
    rw [hlc] at hcode hgone hplace
    obtain ⟨hver, htype, hrei'⟩ := synchronizeAttributes_pull hcode hgone
    have hrc : remoteChanged fh attr = true := by simpa [hlc] using Ne.symm heq
    refine iff_of_false ?_ (by simp [KeepsConflict, hlc, hrc])
    rw [synchronizePlace_samePlace hplace]
    split_ifs
    all_goals
      rw [detectConflict_represented _ _ _ _ _ _ _ (htype.trans hreg) (hrei'.trans hrei), hver]
      simp
  | true =>
    rw [hlc] at hcode hgone hplace heq
    have hrc : remoteChanged fh attr = false := by simpa using Ne.symm heq
    cases hattr : metadataAttrEq fh.attr attr with
    | true =>
      have hs : synchronizeAttributes env fh attr true = ⟨ZFS_OK, false, { fh with
          metadata.mode := getMode attr.mode, metadata.uid := attr.uid, metadata.gid := attr.gid }, attr⟩ := by
        simp [synchronizeAttributes, hattr]
      rw [hs] at hplace ⊢
      exact iff_of_true (synchronizePlace_represented hreg hrei hlocal hremote hlookup hplace)
        (Or.inr (Or.inl ⟨hlc, hattr⟩))
    | false =>
      obtain ⟨hfh, ha⟩ := synchronizeAttributes_push hattr hcode hgone
      rw [hfh, ha] at hplace ⊢
      rw [synchronizePlace_samePlace hplace]
      cases samePlace with
      | true =>
        rw [if_pos rfl, detectConflict_represented]
        · simp [KeepsConflict, pushedMetadata, hlc, hrc, hattr]
        · exact hreg
        · exact hrei
      | false =>
        rw [if_neg (by simp), detectConflict_represented]
        · simp [KeepsConflict, hlc, hrc, hattr, pushedMetadata]
        · exact hreg
        · exact hrei

/-- A file grown from 5 to 10 bytes by two local writes since it was in sync at version 1. -/
def grownFile : InternalFh :=
  ((InternalFh.synced [7, 7, 7, 7, 7]).zfsWrite 5 [8, 8, 8]).zfsWrite 8 [9, 9]

def remoteFh : ZfsFh := ⟨2, 1, 1, 1, 1⟩

/-- The master copy was written by another node: 5 bytes at version 2. The sizes differ, so the
local size is sent first, and the reply and the second lookup show version 3. -/
def grownEnv : SyncEnv where
  setattr := (ZFS_OK, ⟨.reg, 420, 0, 0, 10, 3⟩)
  localSetattr := ZFS_OK
  found := true
  lookup := (ZFS_OK, remoteFh, ⟨.reg, 420, 0, 0, 10, 3⟩)

/-- The same write of another node without a local change of the size is found. -/
theorem synchronizeFile_represented_same_size :
    (synchronizeFile grownEnv remoteFh grownFile ⟨.reg, 420, 0, 0, 10, 2⟩ .plain true false).Represented remoteFh :=
  (synchronizeFile_represented_iff grownEnv remoteFh grownFile ⟨.reg, 420, 0, 0, 10, 2⟩ .plain true false
    rfl rfl (by decide) (by decide) (by decide) rfl rfl).mpr (by decide)

theorem synchronizeFile_drops_conflict :
    grownFile.attr.type = .reg ∧ grownFile.reintegrating = false ∧
    grownFile.metadata.masterVersion < grownFile.attr.version ∧
    grownFile.metadata.masterVersion < (⟨.reg, 420, 0, 0, 5, 2⟩ : Fattr).version ∧
    let s := synchronizeFile grownEnv remoteFh grownFile ⟨.reg, 420, 0, 0, 5, 2⟩ .plain true false
    s.code = ZFS_OK ∧ s.samePlace = true ∧ s.place = .plain ∧ s.scheduled = true ∧
      ¬ s.Represented remoteFh := by
  refine ⟨rfl, rfl, by decide, by decide, rfl, rfl, rfl, rfl, fun h => ?_⟩
  exact absurd h.1 (by decide)

end ZFS
