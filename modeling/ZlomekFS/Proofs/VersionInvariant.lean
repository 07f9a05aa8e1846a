import ZlomekFS.Proofs.ReintegrateBlocks
import ZlomekFS.Spec.CachedFile

/-! The version of the cached file is at least the version recorded for its master, and above it while
some change was not sent: what each operation does to this, and what follows for every run. -/

namespace ZFS
open Spans Runs InternalFh

structure VersionInv (fh : InternalFh) : Prop where
  bound : fh.metadata.localVersion < 2 ^ 64
  le : fh.metadata.masterVersion ≤ fh.metadata.localVersion
  lt : fh.modified.nodes ≠ [] → fh.metadata.masterVersion < fh.metadata.localVersion

structure KeepsVersions (fh fh' : InternalFh) : Prop where
  localVersion : fh'.metadata.localVersion = fh.metadata.localVersion
  masterVersion : fh'.metadata.masterVersion = fh.metadata.masterVersion
  nodes : fh.modified.nodes = [] → fh'.modified.nodes = []

section Keeps
variable {fh fh' fh'' : InternalFh}

theorem KeepsVersions.trans (h : KeepsVersions fh fh') (h' : KeepsVersions fh' fh'') : KeepsVersions fh fh'' :=
  ⟨h'.localVersion.trans h.localVersion, h'.masterVersion.trans h.masterVersion, fun hn => h'.nodes (h.nodes hn)⟩

theorem keepsVersions_of_same (h : fh.SameFile fh') (hn : fh.modified.nodes = [] → fh'.modified.nodes = []) :
    KeepsVersions fh fh' :=
  ⟨h.localVersion, h.masterVersion, hn⟩

theorem keepsVersions_of_updated (h : fh.UpdatedOnly fh') : KeepsVersions fh fh' :=
  keepsVersions_of_same h.toSameFile fun hn => by rw [h.modified, hn]

theorem VersionInv.keeps (h : VersionInv fh) (hk : KeepsVersions fh fh') : VersionInv fh' := by
  refine ⟨?_, ?_, fun hn => ?_⟩ <;> rw [hk.localVersion]
  · exact h.bound
  · rw [hk.masterVersion]
    exact h.le
  · rw [hk.masterVersion]
    exact h.lt fun hnil => hn (hk.nodes hnil)

/-- A local change raises the local version, whatever it modifies. -/
theorem VersionInv.raised (h : VersionInv fh) (hroom : fh.metadata.localVersion + 1 < 2 ^ 64)
    (hlocal : fh'.metadata.localVersion = u64 (fh.metadata.localVersion + 1))
    (hmaster : fh'.metadata.masterVersion = fh.metadata.masterVersion) : VersionInv fh' := by
  rw [u64_of_lt hroom] at hlocal
  have hle := h.le
  exact ⟨by omega, by omega, fun _ => by omega⟩

end Keeps

/-! ## The trees -/

theorem IntervalTree.add_nil (t : IntervalTree) {t' : IntervalTree} (h : t'.nodes = []) : t.add t' = t := by
  obtain ⟨nodes, deleted, separated⟩ := t'
  subst h
  rfl

theorem flushDeleted_keeps (fh : InternalFh) : KeepsVersions fh (fh.flushDeleted .modified) :=
  keepsVersions_of_same fh.flushDeleted_same fun hn => fh.flushDeleted_nodes.trans hn

theorem initModified_keeps (fh : InternalFh) : KeepsVersions fh (fh.initIntervalTree .modified) := by
  unfold initIntervalTree
  simp only
  split_ifs
  · refine ⟨rfl, rfl, fun hn => ?_⟩
    have hadd := IntervalTree.create.add_nil hn
    show ((IntervalTree.create.add fh.modified).deleteFrom fh.attr.size).nodes = []
    rw [hadd]
    exact IntervalTree.deleteFrom_nil _ rfl
  · exact ⟨rfl, rfl, fun _ => rfl⟩

theorem loadIntervalTrees_keeps (fh : InternalFh) : KeepsVersions fh fh.loadIntervalTrees := by
  unfold loadIntervalTrees
  simp only
  split_ifs
  · exact ⟨rfl, rfl, fun hn => hn⟩
  · have hupdated := keepsVersions_of_updated (initUpdated_same { fh with users := fh.users + 1 })
    have hinit := hupdated.trans (initModified_keeps _)
    exact ⟨hinit.localVersion, hinit.masterVersion, hinit.nodes⟩

theorem saveIntervalTrees_keeps (fh : InternalFh) : KeepsVersions fh fh.saveIntervalTrees := by
  unfold saveIntervalTrees
  simp only
  split_ifs <;> exact ⟨rfl, rfl, fun hn => hn⟩

/-! ## Local changes -/

theorem versionInv_setattr {fh : InternalFh} {sa : Sattr} (h : VersionInv fh)
    (hroom : sa.size.isSome → fh.metadata.localVersion + 1 < 2 ^ 64) : VersionInv (fh.zfsSetattr sa) := by
  unfold zfsSetattr
  simp only
  split_ifs with hsize husers
  · have hsame := (resizeTrees_spec
      ({ fh with data := setattrData fh.data sa }.incLocalVersion true) (localSetattr fh sa).size).1
    exact h.raised (hroom hsize) hsame.localVersion hsame.masterVersion
  · exact h.raised (hroom hsize) rfl rfl
  · exact h.keeps ⟨rfl, rfl, fun hn => hn⟩

theorem versionInv_openTrunc {fh : InternalFh} (h : VersionInv fh)
    (hroom : fh.metadata.localVersion + 1 < 2 ^ 64) : VersionInv fh.zfsOpenTrunc := by
  have hload := loadIntervalTrees_keeps fh
  unfold zfsOpenTrunc flushDeleted
  refine h.raised hroom ?_ ?_
  · rw [← hload.localVersion]
    simp only
    split_ifs <;> rfl
  · rw [← hload.masterVersion]
    simp only
    split_ifs <;> rfl

/-! ## The version of the master -/

/-- Clearing the tree takes over the version of the master and keeps the local one ahead of it. -/
theorem versionInv_clear {fh : InternalFh} {version : ℕ} (h : VersionInv fh) (hroom : version + 1 < 2 ^ 64) :
    VersionInv (fh.updateFileClearUpdatedTree1 version) := by
  have hlocal : (fh.updateFileClearUpdatedTree1 version).metadata.localVersion =
      if fh.metadata.masterVersion < fh.metadata.localVersion then
        if fh.metadata.localVersion ≤ version then version + 1 else fh.metadata.localVersion
      else if fh.metadata.localVersion < version then version else fh.metadata.localVersion := by
    rw [← u64_of_lt hroom]
    unfold updateFileClearUpdatedTree1
    simp only
    generalize ite (fh.metadata.masterVersion < _) _ _ = v
    split_ifs <;> rfl
  have hbound := h.bound
  refine ⟨?_, ?_, fun hn => ?_⟩ <;> rw [hlocal]
  · split_ifs <;> omega
  · rw [updateFileClearUpdatedTree1_masterVersion]
    split_ifs <;> omega
  · rw [updateFileClearUpdatedTree1_modified] at hn
    rw [updateFileClearUpdatedTree1_masterVersion, if_pos (h.lt hn)]
    split_ifs <;> omega

/-! ## Updates -/

theorem truncateLocalFile_keeps (fh : InternalFh) (size : ℕ) : KeepsVersions fh (fh.truncateLocalFile size) := by
  unfold truncateLocalFile
  split_ifs
  · exact ⟨rfl, rfl, fun hn => hn⟩
  · obtain ⟨hlocal, hmaster, -⟩ := adoptSize_metadata_versions
      { fh with data := fh.data.truncate (fh.truncateTarget size) } size (fh.truncateTarget size)
    refine ⟨hlocal, hmaster, fun hn => ?_⟩
    rw [adoptSize_modified]
    exact IntervalTree.deleteFrom_nil _ hn

theorem markSame_keeps (fh : InternalFh) (c : Chunk) : KeepsVersions fh (fh.markSame c) := by
  refine ⟨fh.markSame_versions c |>.1, fh.markSame_masterVersion c, fun hn => ?_⟩
  unfold markSame
  split_ifs
  · exact IntervalTree.delete_nil (by omega) hn
  · exact hn

section Update
variable {α : Type} {env : UpdEnv α}

structure UpdEnv.Bounded (env : UpdEnv α) : Prop where
  md5sum : ∀ args reply, env.md5sum args = .ok reply → reply.version + 1 < 2 ^ 64
  read : ∀ c version, env.read c = .changed version → version + 1 < 2 ^ 64

theorem markRanges_keeps [DecidableEq α] (locals ranges : List (Chunk × α)) (fh : InternalFh) :
    KeepsVersions fh (markRanges locals ranges fh).2 := by
  induction locals generalizing ranges fh with
  | nil => exact ⟨rfl, rfl, fun hn => hn⟩
  | cons l locals ih =>
    cases ranges with
    | nil => exact ⟨rfl, rfl, fun hn => hn⟩
    | cons r ranges =>
      unfold markRanges
      split_ifs
      · exact ⟨rfl, rfl, fun hn => hn⟩
      · exact (markSame_keeps fh l.1).trans (ih ranges _)
      · exact ih ranges fh

variable (henv : env.Bounded) (slow : Bool) (blocks : List Span)
include henv

theorem versionInv_fetchRange {s : Upd} (h : VersionInv s.fh) (c : Chunk) : VersionInv (fetchRange env slow blocks s c).fh := by
  unfold fetchRange
  simp only
  split_ifs
  · exact h
  · split
    · rename_i version hread
      exact versionInv_clear h (henv.read c version hread)
    · exact h
    · exact h.keeps ⟨rfl, rfl, fun hn => hn⟩

variable [DecidableEq α] {md5 : List UInt8 → α}

theorem versionInv_fetchRanges (size : ℕ) (ranges locals : List (Chunk × α)) {s : Upd} (h : VersionInv s.fh) :
    VersionInv (fetchRanges env slow blocks size ranges locals s).fh := by
  induction ranges generalizing locals s with
  | nil => exact h
  | cons r ranges ih =>
    have hfetch := versionInv_fetchRange henv slow blocks h r.1
    unfold fetchRanges
    split_ifs
    · exact h
    · simp only
      split_ifs
      · exact ih locals.tail h
      · exact h
    · simp only
      split_ifs
      · exact ih locals.tail hfetch
      · exact hfetch

theorem versionInv_compareSums {fh : InternalFh} (h : VersionInv fh) (j : ℕ) (locals : List (Chunk × α)) {reply : Md5Res α}
    (hreply : reply.version + 1 < 2 ^ 64) : VersionInv (compareSums env slow blocks fh j locals reply).fh := by
  unfold compareSums
  simp only
  set fh1 := if fh.attr.version = fh.metadata.masterVersion ∧ fh.metadata.masterVersion ≠ reply.version then
    fh.updateFileClearUpdatedTree1 reply.version else fh with hfh1
  have hclear : VersionInv fh1 := by
    rw [hfh1]
    split_ifs
    · exact versionInv_clear h hreply
    · exact h
  set fh2 := if fh.attr.size ≠ reply.size then fh1.truncateLocalFile reply.size else fh1 with hfh2
  have hresize : VersionInv fh2 := by
    rw [hfh2]
    split_ifs
    · exact hclear.keeps (truncateLocalFile_keeps fh1 reply.size)
    · exact hclear
  set locals1 := if fh.attr.size ≠ reply.size then locals.take reply.ranges.length else locals
  have hmark := hresize.keeps (markRanges_keeps locals1 reply.ranges fh2)
  split_ifs with hcode hdone
  · exact (versionInv_fetchRanges henv slow blocks reply.size reply.ranges locals1 hmark).keeps (flushDeleted_keeps _)
  · exact versionInv_fetchRanges henv slow blocks reply.size reply.ranges locals1 hmark
  · exact hmark

theorem versionInv_updateBatches (batches : List (List Chunk)) {s : Upd} (h : VersionInv s.fh) :
    VersionInv (updateBatches md5 env slow blocks batches s).fh := by
  induction batches generalizing s with
  | nil => exact h
  | cons args rest ih =>
    have hone : VersionInv (updateFileBlocks1 md5 env slow blocks args s).fh := by
      unfold updateFileBlocks1
      split
      · exact h
      · rename_i reply hreply
        split_ifs
        · exact h
        · exact versionInv_compareSums henv slow blocks h s.j _ (henv.md5sum args reply hreply)
    unfold updateBatches
    simp only
    split_ifs
    · exact hone
    · exact ih hone
    · exact hone

theorem versionInv_updatePart (junk : ℕ → ℕ) {fh : InternalFh} (h : VersionInv fh) (size : ℕ) :
    VersionInv (updatePart md5 env slow junk fh size).2 := by
  have hresize := h.keeps (truncateLocalFile_keeps fh size)
  have hmissing : VersionInv (updateMissing md5 env slow junk (fh.truncateLocalFile size) size).fh := by
    unfold updateMissing
    simp only
    split_ifs
    · exact hresize
    · exact versionInv_updateBatches henv slow _ _ hresize
  unfold updatePart
  simp only
  split_ifs
  · exact hmissing.keeps ⟨rfl, rfl, fun hn => hn⟩
  · exact hmissing

end Update

/-! ## Reintegrations -/

theorem versionInv_reintegrate (env : ReintEnv) {fh : InternalFh} {master : Master} (h : VersionInv fh)
    (hv : master.version < 2 ^ 64) (hroom : fh.metadata.masterVersion + fh.data.size + 2 < 2 ^ 64) :
    VersionInv (reintegrateFileBlocks env fh master).fh := by
  by_cases hprivilege : env.privilege = ZFS_OK
  · rw [reintegrateFileBlocks_privileged hprivilege]
    set s := reintegrateStages env fh master with hs
    have hlooped := reintegrateStages_looped env fh master
    obtain ⟨-, hmod, hmeta, -⟩ := raiseVersion_fh env s
    have hmeta' : (s.raiseVersion env).fh.metadata = fh.metadata := hmeta.trans hlooped.metadata
    have hraised : VersionInv (s.raiseVersion env).fh := by
      refine h.keeps ⟨congrArg _ hmeta', congrArg _ hmeta', fun hn => ?_⟩
      rw [hmod]
      exact hlooped.nodes hn
    have hsettled := reintegratedVersions_le (s.raiseVersion env).fh (s.raiseVersion env).versionIncrease
      (fun hne => ?_) hraised.le hraised.bound
    · obtain ⟨hsame, -, hnodes, -⟩ := finish_spec (s.raiseVersion env)
      refine ⟨?_, ?_, fun hne => ?_⟩ <;> rw [hsame.localVersion]
      · exact hsettled.2.1
      · rw [hsame.masterVersion]
        exact hsettled.1
      · rw [hsame.masterVersion]
        rw [hnodes] at hne
        exact hsettled.2.2 hne (hraised.lt hne)
    · -- only what the loop and the change of the size counted is added while the tree is not empty
      rw [hmod] at hne
      have hinc : (s.raiseVersion env).versionIncrease = s.versionIncrease := by
        have hkeep : s.raises = false := by simp [Reint.raises, hne]
        simp [Reint.raiseVersion, hkeep]
      have hle := reintegrateStages_increase env fh hv
      rw [← hs] at hle
      rw [hmeta', hinc, u64_of_lt (by omega)]
      omega
  · unfold reintegrateFileBlocks
    split_ifs <;> exact h

/-! ## The synchronisation of the attributes -/

/-- `synchronize_file` sends the local attributes to the master. -/
def sendsAttributes (fh : InternalFh) (attr : Fattr) : Bool :=
  localChanged fh attr && !remoteChanged fh attr && !metadataAttrEq fh.attr attr

/-- The version with which the master answers to the local attributes is not above the local one, and
below it while some change was not sent. -/
structure SyncSafe (env : SyncEnv) (fh : InternalFh) (attr : Fattr) : Prop where
  push : sendsAttributes fh attr = true → env.setattr.2.version ≤ fh.metadata.localVersion ∧
    (fh.modified.nodes ≠ [] → env.setattr.2.version < fh.metadata.localVersion)
  attr : attr.version + 1 < 2 ^ 64
  reply : env.setattr.2.version + 1 < 2 ^ 64
  lookup : env.lookup.2.2.version + 1 < 2 ^ 64

section Synchronize
variable {env : SyncEnv} {fh : InternalFh} {attr : Fattr}

section Attributes
variable (h : VersionInv fh) (hroom : attr.version + 1 < 2 ^ 64)
include h hroom

theorem versionInv_finish :
    VersionInv (finishAttributes env fh attr).fh ∧ (finishAttributes env fh attr).attr.version + 1 < 2 ^ 64 := by
  unfold finishAttributes
  split_ifs
  · exact ⟨h.keeps ⟨rfl, rfl, fun hn => hn⟩, hroom⟩
  · exact ⟨h, hroom⟩

/-- The local attributes are sent, and the version in the reply becomes the one of the master. -/
theorem versionInv_push (hreply : env.setattr.2.version + 1 < 2 ^ 64)
    (hsafe : metadataAttrEq fh.attr attr = false → env.setattr.2.version ≤ fh.metadata.localVersion ∧
      (fh.modified.nodes ≠ [] → env.setattr.2.version < fh.metadata.localVersion)) :
    VersionInv (synchronizeAttributes env fh attr true).fh ∧
      (synchronizeAttributes env fh attr true).attr.version + 1 < 2 ^ 64 := by
  unfold synchronizeAttributes
  simp only [if_true]
  cases heq : metadataAttrEq fh.attr attr with
  | true => exact ⟨h.keeps ⟨rfl, rfl, fun hn => hn⟩, hroom⟩
  | false =>
    obtain ⟨hle, hlt⟩ := hsafe heq
    have hpushed : VersionInv { fh with metadata.masterVersion := env.setattr.2.version } := ⟨h.bound, hle, hlt⟩
    simp only [Bool.false_eq_true, if_false]
    split_ifs
    · exact ⟨hpushed, hreply⟩
    · exact versionInv_finish hpushed hreply

theorem versionInv_pull :
    VersionInv (synchronizeAttributes env fh attr false).fh ∧
      (synchronizeAttributes env fh attr false).attr.version + 1 < 2 ^ 64 := by
  unfold synchronizeAttributes
  simp only [Bool.false_eq_true, if_false]
  by_cases hfail : env.localSetattr = ZFS_OK
  · rw [if_neg (not_not.mpr hfail)]
    apply versionInv_finish _ hroom
    exact h.keeps ⟨rfl, rfl, fun hn => hn⟩
  · rw [if_pos hfail]
    exact ⟨h, hroom⟩

end Attributes

theorem versionInv_detectConflict (masterFh : ZfsFh) (h : VersionInv fh) (hroom : attr.version + 1 < 2 ^ 64)
    (place : Place) (localChanged remoteChanged schedule : Bool) :
    VersionInv (detectConflict masterFh fh attr place localChanged remoteChanged schedule).fh := by
  unfold detectConflict
  simp only
  split_ifs
  · exact h
  · exact h
  · exact versionInv_clear h hroom
  · exact h

theorem versionInv_place (masterFh : ZfsFh) (h : VersionInv fh) (hroom : attr.version + 1 < 2 ^ 64)
    (hlookup : env.lookup.2.2.version + 1 < 2 ^ 64) (place : Place)
    (localChanged remoteChanged schedule samePlace : Bool) :
    VersionInv (synchronizePlace env masterFh fh attr place localChanged remoteChanged schedule samePlace).fh := by
  unfold synchronizePlace
  simp only
  split_ifs
  · exact versionInv_detectConflict masterFh h hroom place _ _ _
  · exact h
  · exact h
  · exact versionInv_detectConflict masterFh h hlookup place _ _ _

theorem versionInv_synchronize (masterFh : ZfsFh) (h : VersionInv fh) (hsafe : SyncSafe env fh attr)
    (place : Place) (schedule samePlace : Bool) :
    VersionInv (synchronizeFile env masterFh fh attr place schedule samePlace).fh := by
  have hattrs : (localChanged fh attr ^^ remoteChanged fh attr) = true →
      VersionInv (synchronizeAttributes env fh attr (localChanged fh attr)).fh ∧
        (synchronizeAttributes env fh attr (localChanged fh attr)).attr.version + 1 < 2 ^ 64 := by
    intro hone
    cases hlocal : localChanged fh attr with
    | true =>
      apply versionInv_push h hsafe.attr hsafe.reply
      intro heq
      apply hsafe.push
      rw [hlocal, Bool.true_xor] at hone
      rw [sendsAttributes, hlocal, hone, heq]
      rfl
    | false => exact versionInv_pull h hsafe.attr
  unfold synchronizeFile
  simp only
  split_ifs with hone
  · exact (hattrs hone).1
  · exact (hattrs hone).1
  · exact versionInv_place masterFh (hattrs hone).1 (hattrs hone).2 hsafe.lookup place _ _ _ _
  · exact versionInv_place masterFh h hsafe.attr hsafe.lookup place _ _ _ _

end Synchronize

/-! ## The resolutions of a conflict -/

section Resolve
variable {fh : InternalFh}

theorem storeTrees_nodes (fh : InternalFh) : fh.modified.nodes = [] → fh.storeTrees.modified.nodes = [] := by
  intro hn
  unfold storeTrees
  apply (saveIntervalTrees_keeps _).nodes
  split_ifs <;> exact hn

theorem versionInv_resolved {localVersion masterVersion : ℕ} (hbound : localVersion < 2 ^ 64)
    (hle : masterVersion ≤ localVersion) (hlt : fh.modified.nodes ≠ [] → masterVersion < localVersion) :
    VersionInv (fh.resolvedVersions localVersion masterVersion) :=
  ⟨hbound, hle, hlt⟩

theorem versionInv_discardLocal (env : ResolveEnv) (h : VersionInv fh) (remote : Fattr) :
    VersionInv (resolveConflictDiscardLocal env fh remote).fh := by
  have hdiscard : ∀ fh : InternalFh, VersionInv (discardLocalVersions env fh remote).fh := by
    intro fh
    have hnil : fh.discardTrees.modified.nodes = [] := storeTrees_nodes _ rfl
    unfold discardLocalVersions
    simp only
    apply versionInv_resolved _ le_rfl fun hn => absurd hnil hn
    split_ifs <;> exact u64_lt _
  unfold resolveConflictDiscardLocal
  simp only
  split_ifs
  · exact h
  · exact hdiscard _
  · exact hdiscard _

theorem versionInv_discardRemote (env : ResolveEnv) (h : VersionInv fh) {remote : Fattr}
    (hversion : fh.attr.version + 1 < 2 ^ 64) (hremote : remote.version + 2 < 2 ^ 64)
    (hreply : env.setattr.2.version + 2 < 2 ^ 64) : VersionInv (resolveConflictDiscardRemote env fh remote).fh := by
  have hclaim : ∀ (fh : InternalFh) (remote : Fattr), fh.attr.version + 1 < 2 ^ 64 → remote.version + 2 < 2 ^ 64 →
      VersionInv (discardRemoteVersions env fh remote).fh := by
    intro fh remote hv hr
    unfold discardRemoteVersions
    simp only
    rw [u64_of_lt (show remote.version + 1 < _ by omega), u64_of_lt (by split_ifs <;> omega)]
    apply versionInv_resolved
    · split_ifs <;> omega
    · exact Nat.le_succ _
    · exact fun _ => Nat.lt_succ_self _
  unfold resolveConflictDiscardRemote
  split_ifs
  · exact h
  · exact hclaim _ _ hversion hreply
  · exact hclaim _ _ hversion hremote

end Resolve

/-! ## Runs -/

section Run
variable {α : Type} [DecidableEq α] {md5 : List UInt8 → α} {fh : InternalFh}

/-- The condition under which an operation keeps the invariant: the versions do not overflow, and the
reply to a synchronisation of the attributes is a safe one. -/
def OpSafe (fh : InternalFh) : CachedOp α → Prop
  | .write _ _ => fh.metadata.localVersion + 1 < 2 ^ 64
  | .setattr sa => sa.size.isSome → fh.metadata.localVersion + 1 < 2 ^ 64
  | .openTrunc => fh.metadata.localVersion + 1 < 2 ^ 64
  | .openFile => True
  | .closeFile => True
  | .synchronize env _ attr _ _ _ => SyncSafe env fh attr
  | .clear version => version + 1 < 2 ^ 64
  | .update env _ _ _ => env.Bounded
  | .updateBlocks env _ _ _ => env.Bounded
  | .reintegrate _ master => master.version < 2 ^ 64 ∧ fh.metadata.masterVersion + fh.data.size + 2 < 2 ^ 64
  | .discardLocal _ _ => True
  | .discardRemote env remote => fh.attr.version + 1 < 2 ^ 64 ∧ remote.version + 2 < 2 ^ 64 ∧
    env.setattr.2.version + 2 < 2 ^ 64

theorem versionInv_step {fh' : InternalFh} {op : CachedOp α} (h : VersionInv fh) (hsafe : OpSafe fh op)
    (hstep : cachedStep md5 fh op = some fh') : VersionInv fh' := by
  cases op with
  | write offset bytes =>
    obtain ⟨-, ⟨⟩⟩ := Option.ite_none_right_eq_some.mp hstep
    exact h.raised hsafe rfl rfl
  | setattr sa =>
    obtain rfl := Option.some.inj hstep
    exact versionInv_setattr h hsafe
  | openTrunc =>
    obtain rfl := Option.some.inj hstep
    exact versionInv_openTrunc h hsafe
  | openFile =>
    obtain rfl := Option.some.inj hstep
    exact h.keeps (loadIntervalTrees_keeps fh)
  | closeFile =>
    obtain ⟨-, ⟨⟩⟩ := Option.ite_none_right_eq_some.mp hstep
    exact h.keeps (saveIntervalTrees_keeps fh)
  | synchronize env masterFh attr place schedule samePlace =>
    obtain rfl := Option.some.inj hstep
    exact versionInv_synchronize masterFh h hsafe place schedule samePlace
  | clear version =>
    obtain rfl := Option.some.inj hstep
    exact versionInv_clear h hsafe
  | update env slow junk size =>
    obtain ⟨-, ⟨⟩⟩ := Option.ite_none_right_eq_some.mp hstep
    exact versionInv_updatePart hsafe slow junk h size
  | updateBlocks env slow blocks junk =>
    obtain ⟨-, ⟨⟩⟩ := Option.ite_none_right_eq_some.mp hstep
    exact versionInv_updateBatches hsafe slow blocks _ h
  | reintegrate env master =>
    obtain ⟨-, ⟨⟩⟩ := Option.ite_none_right_eq_some.mp hstep
    exact versionInv_reintegrate env h hsafe.1 hsafe.2
  | discardLocal env remote =>
    obtain rfl := Option.some.inj hstep
    exact versionInv_discardLocal env h remote
  | discardRemote env remote =>
    obtain rfl := Option.some.inj hstep
    exact versionInv_discardRemote env h hsafe.1 hsafe.2.1 hsafe.2.2

structure NothingToSend (fh : InternalFh) : Prop where
  bound : fh.metadata.localVersion < 2 ^ 64
  le : fh.metadata.masterVersion ≤ fh.metadata.localVersion
  nodes : fh.modified.nodes = []

end Run

/-- The master of a file of four bytes, and how it answers when it gets the size of a longer file. -/
def shortMaster : Master := .synced [1, 1, 1, 1]

def longerMaster : Master := shortMaster.setattr { mode := some 420, uid := some 0, gid := some 0, size := some 5 }

def pushEnv : SyncEnv := ⟨(ZFS_OK, longerMaster.getattr), ZFS_OK, true, (ZFS_OK, ⟨1, 1, 1, 1, 1⟩, longerMaster.getattr)⟩

end ZFS
