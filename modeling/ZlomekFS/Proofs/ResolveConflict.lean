import ZlomekFS.Proofs.IntervalTree
import ZlomekFS.Spec.ResolveConflict

/-! Three of the four copies of the version agree after a conflict was resolved, if the cached version was the one on the
master before. The cached one never does: it is increased by the caller and once more by `remote_reintegrate_ver`. -/

namespace ZFS
open Spans InternalFh

namespace InternalFh

/-! ## The trees -/

structure SameTrees (fh fh' : InternalFh) : Prop where
  updated : ∀ i, i ∈ fh'.updated ↔ i ∈ fh.updated
  modified : ∀ i, i ∈ fh'.modified ↔ i ∈ fh.modified

theorem SameTrees.trans {fh fh1 fh2 : InternalFh} (h : SameTrees fh fh1) (h' : SameTrees fh1 fh2) : SameTrees fh fh2 :=
  ⟨fun i => (h'.updated i).trans (h.updated i), fun i => (h'.modified i).trans (h.modified i)⟩

theorem sameTrees_flush (fh : InternalFh) (type : TreeType) : SameTrees fh (fh.flushIntervalTree type) := by
  cases type <;> exact ⟨fun _ => Iff.rfl, fun _ => Iff.rfl⟩

theorem sameTrees_save (fh : InternalFh) : SameTrees fh fh.saveIntervalTrees := by
  have huse : SameTrees fh { fh with users := fh.users - 1 } := ⟨fun _ => Iff.rfl, fun _ => Iff.rfl⟩
  unfold saveIntervalTrees
  simp only
  split_ifs
  · exact huse
  · exact (huse.trans (sameTrees_flush _ _)).trans (sameTrees_flush _ _)

theorem sameTrees_store (fh : InternalFh) : SameTrees fh fh.storeTrees := by
  unfold storeTrees
  split_ifs
  · exact ((sameTrees_flush fh _).trans (sameTrees_flush _ _)).trans (sameTrees_save _)
  · exact sameTrees_save fh

theorem changeTrees_eq {env : DiscardEnv} {change : InternalFh → InternalFh} {fh fh' : InternalFh}
    (h : fh.changeTrees env change = (fh', true)) : fh' = (change fh.loadIntervalTrees).storeTrees := by
  have hcode : ∀ {fh1 : InternalFh}, (fh1, false) ≠ (fh', true) := by simp
  rw [changeTrees] at h
  unfold storeTrees
  generalize change fh.loadIntervalTrees = fh1 at h ⊢
  have husers : (fh1.flushIntervalTree .updated).users = fh1.users := rfl
  by_cases hshared : 1 < fh1.users <;> simp only [hshared, husers, if_true, if_false] at h ⊢ <;> split_ifs at h
  all_goals first
    | exact absurd h hcode
    | exact (Prod.mk.inj h).1.symm

theorem changeTrees_spec {env : DiscardEnv} {change : InternalFh → InternalFh} {fh fh' : InternalFh}
    (h : fh.changeTrees env change = (fh', true)) : SameTrees (change fh.loadIntervalTrees) fh' := by
  rw [changeTrees_eq h]
  exact sameTrees_store _

theorem adoptAttrs_init (fh : InternalFh) (fa : Fattr) (type : TreeType) :
    (fh.adoptAttrs fa).initIntervalTree type = (fh.initIntervalTree type).adoptAttrs fa := by
  cases type with
  | updated =>
    simp only [initIntervalTree, show (fh.adoptAttrs fa).metadata.updatedTree = fh.metadata.updatedTree from rfl]
    split_ifs <;> rfl
  | modified =>
    simp only [initIntervalTree, show (fh.adoptAttrs fa).metadata.modifiedTree = fh.metadata.modifiedTree from rfl]
    split_ifs <;> rfl

/-- The recorded attributes have no part in what is loaded. -/
theorem adoptAttrs_load (fh : InternalFh) (fa : Fattr) :
    (fh.adoptAttrs fa).loadIntervalTrees = fh.loadIntervalTrees.adoptAttrs fa := by
  have huse : { fh.adoptAttrs fa with users := fh.users + 1 } = { fh with users := fh.users + 1 }.adoptAttrs fa := rfl
  simp only [loadIntervalTrees, show (fh.adoptAttrs fa).users = fh.users from rfl, huse, adoptAttrs_init]
  split_ifs <;> rfl

end InternalFh

/-- The answers as the operations of a cached file take them. -/
def DiscardEnv.toResolveEnv (env : DiscardEnv) (s : ConflictFiles) : ResolveEnv :=
  ⟨env.localSetattr, (env.remoteSetattr, masterSetattr s.master (resolvedAttrs s.fh.attr s.remote)), env.reintegrateVer⟩

/-! ## The versions -/

theorem u64_add_sub64 {a b : ℕ} (ha : a < 2 ^ 64) (hb : b < 2 ^ 64) : u64 (b + sub64 a b) = a := by
  unfold u64 sub64 u64
  omega

/-- An increase leads to the version just where it starts at the right one. -/
theorem u64_add_sub64_iff {a b c : ℕ} (ha : a < 2 ^ 64) (hb : b < 2 ^ 64) (hc : c < 2 ^ 64) :
    a = u64 (c + sub64 a b) ↔ c = b := by
  unfold u64 sub64 u64
  omega

/-- What is left of the old version is increased twice. -/
theorem u64_add_twice_ne {a b : ℕ} (ha : a < 2 ^ 64) (hb : b < 2 ^ 64) (hne : a ≠ b) :
    u64 (u64 (b + sub64 a b) + sub64 a b) ≠ a := by
  rw [u64_add_sub64 ha hb]
  unfold u64 sub64 u64
  omega

namespace ConflictFiles

variable {env : DiscardEnv} {s s' : ConflictFiles}

theorem adopt_ok {change : InternalFh → InternalFh}
    {version localVersion : ℕ} (h : s.adopt env change version localVersion = (ZFS_OK, s')) :
    ∃ fh, s.fh.changeTrees env change = (fh, true) ∧ s'.fh = fh.resolvedVersions localVersion version ∧
      s'.remote.version = u64 (u64 (s.remote.version + sub64 version s.remote.version) + sub64 version s.remote.version) ∧
      s'.master.version = u64 (s.master.version + sub64 version s.remote.version) ∧ s'.scheduled = true := by
  unfold adopt at h
  cases htrees : s.fh.changeTrees env change with
  | mk fh ok =>
    cases ok with
    | false => simp [htrees, ZFS_METADATA_ERROR, ZFS_OK] at h
    | true =>
      simp only [htrees, Bool.not_true, Bool.false_eq_true, if_false] at h
      obtain ⟨hcode, rfl⟩ := Prod.mk.inj h
      refine ⟨fh, rfl, ?_⟩
      simp [remoteReintegrateVer, hcode]

theorem discardLocal_spec (hlocal : s.fh.attr.version < 2 ^ 64)
    (hremote : s.remote.version < 2 ^ 64) (hpos : 0 < s.remote.version) (hmaster : s.master.version < 2 ^ 64)
    (h : s.discardLocal env = (ZFS_OK, s')) :
    (LocalDiscarded s' ↔ s.master.version = s.remote.version) ∧ ¬ s'.CachedRight := by
  obtain ⟨version, hversion⟩ : ∃ version, (if s.remote.version < s.fh.attr.version then u64 (s.fh.attr.version + 1)
      else u64 (s.remote.version + 1)) = version := ⟨_, rfl⟩
  have hlt : version < 2 ^ 64 := by
    rw [← hversion]
    split_ifs <;> exact u64_lt _
  have hne : version ≠ s.remote.version := by
    rw [← hversion]
    unfold u64
    split_ifs <;> omega
  unfold discardLocal at h
  simp only [hversion] at h
  obtain ⟨fh, htrees, hfh, hcached, hmas, hsched⟩ := adopt_ok h
  have hsame := changeTrees_spec htrees
  refine ⟨⟨fun hd => ?_, fun heq => ?_⟩, ?_⟩
  · have := hd.master
    rw [hfh, hmas] at this
    exact (u64_add_sub64_iff hlt hremote hmaster).mp this
  · have hmaster' : s'.master.version = version := by
      rw [hmas, heq, u64_add_sub64 hlt hremote]
    constructor
    case recorded => rw [hfh]; rfl
    case master => rw [hfh, hmaster']; rfl
    case updated =>
      intro i hi
      rw [hfh] at hi
      exact IntervalTree.not_mem_empty i _ ((hsame.updated i).mp hi)
    case modified =>
      intro i hi
      rw [hfh] at hi
      exact IntervalTree.not_mem_empty i _ ((hsame.modified i).mp hi)
    case update => simp [updateP, hfh, resolvedVersions, setAttrVersion]
    case reintegrate => simp [reintegrateP, hfh, resolvedVersions, setAttrVersion]
    case scheduled => exact hsched
    case noConflict => simp [dataConflict, hfh, resolvedVersions, setAttrVersion]
  · rw [CachedRight, hcached, hfh]
    exact u64_add_twice_ne hlt hremote hne

theorem discardRemote_spec (hlocal : s.fh.attr.version < 2 ^ 64)
    (hremote : s.remote.version < 2 ^ 64) (hmaster : s.master.version < 2 ^ 64)
    (h : s.discardRemote env = (ZFS_OK, s')) :
    (RemoteDiscarded s.fh.loadIntervalTrees s' ↔ s.master.version = s.remote.version ∧
      max s.fh.attr.version (s.remote.version + 1) ≠ 2 ^ 64 - 1) ∧ ¬ s'.CachedRight := by
  obtain ⟨version, hversion⟩ : ∃ version, (if s.remote.version < s.fh.attr.version then s.fh.attr.version
      else u64 (s.remote.version + 1)) = version := ⟨_, rfl⟩
  have hlt : version < 2 ^ 64 := by
    rw [← hversion]
    split_ifs
    · exact hlocal
    · exact u64_lt _
  have hne : version ≠ s.remote.version := by
    rw [← hversion]
    unfold u64
    split_ifs <;> omega
  -- the local version is one more, so it must not wrap
  have hnext : version < u64 (version + 1) ↔ max s.fh.attr.version (s.remote.version + 1) ≠ 2 ^ 64 - 1 := by
    rw [← hversion]
    unfold u64
    split_ifs <;> omega
  unfold discardRemote at h
  simp only [hversion] at h
  obtain ⟨fh, htrees, hfh, hcached, hmas, hsched⟩ := adopt_ok h
  have hsame := changeTrees_spec htrees
  rw [← hnext]
  refine ⟨⟨fun hd => ⟨?_, ?_⟩, fun hcond => ?_⟩, ?_⟩
  · have := hd.master
    rw [hfh, hmas] at this
    exact (u64_add_sub64_iff hlt hremote hmaster).mp this
  · have := hd.newer
    rw [hfh] at this
    exact this
  · have hmaster' : s'.master.version = version := by
      rw [hmas, hcond.1, u64_add_sub64 hlt hremote]
    constructor
    case newer => rw [hfh]; exact hcond.2
    case master => rw [hfh, hmaster']; rfl
    case updated =>
      intro i hi
      rw [hfh] at hi
      exact IntervalTree.not_mem_empty i _ ((hsame.updated i).mp hi)
    case modified =>
      intro i
      rw [hfh]
      exact (hsame.modified i).trans IntervalTree.mem_add
    case reintegrate => simp [reintegrateP, hfh, hmaster', resolvedVersions, setAttrVersion, hcond.2]
    case scheduled => exact hsched
    case noConflict => simp [dataConflict, hfh, hmaster', resolvedVersions, setAttrVersion]
  · rw [CachedRight, hcached, hfh]
    exact u64_add_twice_ne hlt hremote hne

/-! ## The file handle alone -/

theorem discardLocal_fh
    (h : s.discardLocal env = (ZFS_OK, s')) (answers : ResolveEnv) :
    s'.fh = (discardLocalVersions answers s.fh s.remote).fh := by
  unfold discardLocal at h
  obtain ⟨fh, htrees, hfh, -⟩ := adopt_ok h
  rw [hfh, changeTrees_eq htrees]
  simp only [discardLocalVersions, discardTrees]

theorem discardRemote_fh
    (h : s.discardRemote env = (ZFS_OK, s')) (answers : ResolveEnv) :
    s'.fh = (discardRemoteVersions answers s.fh s.remote).fh := by
  unfold discardRemote at h
  obtain ⟨fh, htrees, hfh, -⟩ := adopt_ok h
  rw [hfh, changeTrees_eq htrees]
  simp only [discardRemoteVersions, claimTrees]

/-- A call that succeeds does to the file handle what the operation of the cached file does. -/
theorem resolveConflictDiscardLocal_fh
    (h : s.resolveConflictDiscardLocal env = (ZFS_OK, s')) :
    s'.fh = (ZFS.resolveConflictDiscardLocal (env.toResolveEnv s) s.fh s.remote).fh := by
  unfold resolveConflictDiscardLocal at h
  unfold ZFS.resolveConflictDiscardLocal
  split_ifs at h with hattrs hcode
  · exact absurd (Prod.mk.inj h).1 hcode
  · rw [if_pos hattrs, if_neg (show ¬ (env.toResolveEnv s).localSetattr ≠ ZFS_OK from hcode)]
    exact discardLocal_fh h _
  · rw [if_neg hattrs]
    exact discardLocal_fh h _

theorem resolveConflictDiscardRemote_fh
    (h : s.resolveConflictDiscardRemote env = (ZFS_OK, s')) :
    s'.fh = (ZFS.resolveConflictDiscardRemote (env.toResolveEnv s) s.fh s.remote).fh := by
  unfold resolveConflictDiscardRemote at h
  unfold ZFS.resolveConflictDiscardRemote
  split_ifs at h with hattrs hcode
  · exact absurd (Prod.mk.inj h).1 hcode
  · rw [if_pos hattrs, if_neg (show ¬ (env.toResolveEnv s).setattr.1 ≠ ZFS_OK from hcode)]
    exact discardRemote_fh h _
  · rw [if_neg hattrs]
    exact discardRemote_fh h _

end ConflictFiles

/-! ## Both sides -/

/-- Whichever side is discarded, everything but the cached version comes out right just where the cached version was the
one on the master before, or was fetched with the attributes. The cached version is wrong each time. -/
theorem resolveConflict_iff (env : DiscardEnv) (s s' : ConflictFiles) (hs : s.Versioned) :
    (s.resolveConflictDiscardLocal env = (ZFS_OK, s') →
      (LocalDiscarded s' ↔ s.master.version = s.remote.version) ∧ ¬ s'.CachedRight) ∧
    (s.resolveConflictDiscardRemote env = (ZFS_OK, s') →
      (RemoteDiscarded s.fh.loadIntervalTrees s' ↔ (attrsConflict s.fh s.remote = true ∨ s.master.version = s.remote.version) ∧
        max s.fh.attr.version (s.master.version + 1) ≠ 2 ^ 64 - 1) ∧ ¬ s'.CachedRight) := by
  refine ⟨fun h => ?_, fun h => ?_⟩
  · unfold ConflictFiles.resolveConflictDiscardLocal at h
    split_ifs at h with hattrs hcode
    · exact absurd (Prod.mk.inj h).1 hcode
    · have hspec := ConflictFiles.discardLocal_spec (by exact hs.metadataLt) (by exact hs.remoteLt) (by exact hs.remotePos)
        (by exact hs.masterLt) h
      exact hspec
    · exact ConflictFiles.discardLocal_spec hs.localLt hs.remoteLt hs.remotePos hs.masterLt h
  · unfold ConflictFiles.resolveConflictDiscardRemote at h
    split_ifs at h with hattrs hcode
    · exact absurd (Prod.mk.inj h).1 hcode
    · obtain ⟨hdiscarded, hcached⟩ := ConflictFiles.discardRemote_spec (by exact hs.localLt) (by exact hs.masterLt)
        (by exact hs.masterLt) h
      refine ⟨?_, hcached⟩
      rw [adoptAttrs_load] at hdiscarded
      constructor
      · intro hd
        exact ⟨Or.inl hattrs, (hdiscarded.mp ⟨hd.1, hd.2, hd.3, hd.4, hd.5, hd.6, hd.7⟩).2⟩
      · intro hcond
        have hd := hdiscarded.mpr ⟨rfl, hcond.2⟩
        exact ⟨hd.1, hd.2, hd.3, hd.4, hd.5, hd.6, hd.7⟩
    · have hspec := ConflictFiles.discardRemote_spec hs.localLt hs.remoteLt hs.masterLt h
      refine ⟨hspec.1.trans ?_, hspec.2⟩
      constructor
      · intro hcond
        exact ⟨Or.inr hcond.1, hcond.1 ▸ hcond.2⟩
      · intro hcond
        have heq := hcond.1.resolve_left hattrs
        exact ⟨heq, heq ▸ hcond.2⟩

/-- The local file at version 3, the one on the master at 5; both come from version 1. -/
def conflictSample : ConflictFiles :=
  let fh := synced [1, 2]
  { fh := { fh with attr.version := 3, metadata.localVersion := 3 }
    remote := { fh.attr with version := 5 }
    master := { fh.attr with version := 5 }
    scheduled := false }

def resolveSample : DiscardEnv := ⟨ZFS_OK, ZFS_OK, true, true, true, true, ZFS_OK⟩

theorem conflictSample_versioned : conflictSample.Versioned := by
  constructor <;> decide

theorem resolveConflict_iff_sample :
    LocalDiscarded (conflictSample.resolveConflictDiscardLocal resolveSample).2 ∧
      RemoteDiscarded conflictSample.fh.loadIntervalTrees (conflictSample.resolveConflictDiscardRemote resolveSample).2 := by
  have hiff s' := resolveConflict_iff resolveSample conflictSample s' conflictSample_versioned
  refine ⟨?_, ?_⟩
  · have hres := ((hiff (conflictSample.resolveConflictDiscardLocal resolveSample).2).1 rfl).1
    exact hres.mpr rfl
  · have hres := ((hiff (conflictSample.resolveConflictDiscardRemote resolveSample).2).2 rfl).1
    exact hres.mpr ⟨Or.inr rfl, by decide⟩

/-- The master is at version 6 and that is recorded, but the cached version is 7. With the remote file discarded the
conflict is still seen in the conflict directory. -/
theorem resolveConflict_cached_wrong :
    dataConflict conflictSample.fh conflictSample.remote = true ∧
    (∃ s', conflictSample.resolveConflictDiscardLocal resolveSample = (ZFS_OK, s') ∧
      s'.fh.metadata.masterVersion = 6 ∧ s'.master.version = 6 ∧ s'.remote.version = 7) ∧
    ∃ s', conflictSample.resolveConflictDiscardRemote resolveSample = (ZFS_OK, s') ∧
      s'.fh.metadata.masterVersion = 6 ∧ s'.master.version = 6 ∧ s'.remote.version = 7 ∧
      tryResolveConflict s'.fh s'.remote = false :=
  ⟨rfl, ⟨_, rfl, rfl, rfl, rfl⟩, ⟨_, rfl, rfl, rfl, rfl, by decide +kernel⟩⟩

end ZFS
