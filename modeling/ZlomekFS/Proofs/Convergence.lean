import ZlomekFS.Proofs.ReintegrateBlocks
import ZlomekFS.Spec.Replica

/-! Reintegration makes the master equal to the local file. What must be sent is known only from the
modified tree and from the size in the cached attributes, so every operation has to keep every
byte in which the two copies differ in the tree. `zfs_setattr` does not do so where it extends
the file, `zfs_open` leaves the cached size behind. -/

namespace ZFS
open Spans Replica

structure SameAttrs (s : Replica) : Prop where
  type : s.fh.attr.type = .reg
  mode : s.fh.attr.mode = s.fh.metadata.mode
  uid : s.fh.attr.uid = s.fh.metadata.uid
  gid : s.fh.attr.gid = s.fh.metadata.gid
  masterMode : s.master.mode = s.fh.metadata.mode
  masterUid : s.master.uid = s.fh.metadata.uid
  masterGid : s.master.gid = s.fh.metadata.gid
  permissions : getMode s.fh.metadata.mode = s.fh.metadata.mode

/-- What the operations keep. The cached version is wrong after some reintegrations, but then the
sizes are equal. -/
structure ReplicaInv (s : Replica) : Prop where
  copied : ∀ i < s.fh.data.size, i ∉ s.fh.modified → s.fh.data.byte i = s.master.data.byte i
  size : s.fh.data.size ≤ s.fh.attr.size
  flag : s.fh.FlagOk
  attrs : SameAttrs s
  cached : s.fh.attr.version = s.fh.metadata.localVersion ∨ s.fh.attr.size = s.master.data.size
  known : s.fh.metadata.masterVersion = s.master.version
  le : s.master.version ≤ s.fh.metadata.localVersion
  bound : s.fh.metadata.localVersion < 2 ^ 64

structure ReplicaStart (s : Replica) : Prop where
  data : s.master.data = s.fh.data
  modified : s.fh.modified.nodes = []
  size : s.fh.attr.size = s.fh.data.size
  attrs : SameAttrs s
  cached : s.fh.attr.version = s.fh.metadata.localVersion
  known : s.fh.metadata.masterVersion = s.master.version
  le : s.master.version ≤ s.fh.metadata.localVersion
  bound : s.fh.metadata.localVersion < 2 ^ 64

/-- The operations that keep the differences in the tree: bytes that an operation adds to the file
without adding them to the tree are zero at the master. A reintegration runs without errors,
the cached size is that of the file, and no interval in the tree is empty. No version overflows. -/
def SteadyOp (s : Replica) : ReplicaOp → Prop
  | .write offset _ => s.fh.metadata.localVersion + 1 < 2 ^ 64 ∧
      ∀ i, s.fh.data.size ≤ i → i < min offset s.fh.attr.size → i ∉ s.fh.modified → s.master.data.byte i = 0
  | .setattr size => s.fh.metadata.localVersion + 1 < 2 ^ 64 ∧
      ∀ i, s.fh.data.size ≤ i → i < size → i ∉ s.fh.modified → s.master.data.byte i = 0
  | .openTrunc => s.fh.metadata.localVersion + 1 < 2 ^ 64
  | .reintegrate env => env.Clean ∧ s.fh.attr.size = s.fh.data.size ∧
      (∀ n ∈ s.fh.modified.nodes, n.start < n.stop) ∧
      s.fh.metadata.masterVersion + s.fh.data.size + 2 < 2 ^ 64
  | _ => True

variable {s s' : Replica}

theorem replicaInv_start (h : ReplicaStart s) : ReplicaInv s :=
  ⟨fun i _ _ => by rw [h.data], h.size.ge, fun _ => h.modified, h.attrs, Or.inl h.cached, h.known, h.le,
    h.bound⟩

section
variable (h : ReplicaInv s)

include h

theorem replicaInv_write {offset : ℕ} {bytes : List UInt8}
    (hsteady : SteadyOp s (.write offset bytes)) (hst : s.step (.write offset bytes) = some s') :
    ReplicaInv s' := by
  obtain ⟨hover, hzero⟩ := hsteady
  simp only [step] at hst
  split_ifs at hst
  obtain rfl := Option.some.inj hst
  have hlocal : (s.fh.zfsWrite offset bytes).metadata.localVersion = s.fh.metadata.localVersion + 1 :=
    u64_of_lt hover
  have hsize : (s.fh.zfsWrite offset bytes).attr.size = max s.fh.attr.size (offset + bytes.length) := rfl
  have hdata : (s.fh.zfsWrite offset bytes).data = s.fh.data.write offset bytes := rfl
  have hfile := h.size
  have hle := h.le
  refine ⟨fun i hi hm => ?_, ?_, ?_, ⟨h.attrs.type, h.attrs.mode, h.attrs.uid, h.attrs.gid, h.attrs.masterMode,
    h.attrs.masterUid, h.attrs.masterGid, h.attrs.permissions⟩, Or.inl rfl, h.known, ?_, ?_⟩
  · simp only [hdata] at hi ⊢
    have hnot : i ∉ s.fh.modified ∧ ¬ (min offset s.fh.attr.size ≤ i ∧ i < offset + bytes.length) := by
      have hrange := (s.fh.localWrite offset bytes).writtenRange_bounds offset bytes.length
      have hattr : (s.fh.localWrite offset bytes).attr = s.fh.attr := rfl
      rw [hattr] at hrange
      refine ⟨fun hc => hm (InternalFh.mem_recordWrite_modified.mpr (Or.inl hc)), fun hc => hm ?_⟩
      exact InternalFh.mem_recordWrite_modified.mpr (Or.inr (by omega))
    obtain ⟨hmod, hout⟩ := hnot
    have hbyte : (s.fh.data.write offset bytes).byte i = s.fh.data.byte i := by
      rcases lt_or_ge i offset with hlt | hge
      · exact FlatFile.byte_write_of_lt _ _ hlt
      · exact FlatFile.byte_write_of_ge _ _ (by omega)
    rw [hbyte]
    rcases lt_or_ge i s.fh.data.size with hold | hnew
    · exact h.copied i hold hmod
    · -- the bytes of a hole in front of the written ones
      rw [s.fh.data.beyond i hnew]
      have hlt : i < min offset s.fh.attr.size := by
        rcases eq_or_ne bytes [] with rfl | hne
        · rw [FlatFile.write_nil] at hi
          omega
        · rw [FlatFile.size_write _ _ hne] at hi
          omega
      exact (hzero i hnew hlt hmod).symm
  · simp only [hdata, hsize]
    rcases eq_or_ne bytes [] with rfl | hne
    · rw [FlatFile.write_nil]
      omega
    · rw [FlatFile.size_write _ _ hne]
      omega
  · exact InternalFh.flagOk_useless _
  · simp only [hlocal]
    omega
  · simp only [hlocal]
    omega

theorem replicaInv_setattr {size : ℕ}
    (hsteady : SteadyOp s (.setattr size)) (hst : s.step (.setattr size) = some s') : ReplicaInv s' := by
  obtain ⟨hover, hzero⟩ := hsteady
  obtain rfl := Option.some.inj hst
  obtain ⟨hdata, -, hattr, hlocal, hmaster, ⟨hmode, huid, hgid⟩, hmod, hflag⟩ := s.fh.zfsSetattr_size_spec size
  rw [u64_of_lt hover] at hattr hlocal
  have hle := h.le
  refine ⟨fun i hi hm => ?_, ?_, hflag h.flag, ?_, Or.inl ?_, hmaster.trans h.known, ?_, ?_⟩
  · simp only [hdata, FlatFile.size_truncate] at hi ⊢
    rw [FlatFile.byte_truncate_of_lt _ hi]
    have hold : i ∉ s.fh.modified := fun hc => hm (hmod i hi hc)
    rcases lt_or_ge i s.fh.data.size with hlt | hge
    · exact h.copied i hlt hold
    · rw [s.fh.data.beyond i hge]
      exact (hzero i hge hi hold).symm
  · simp [hdata, hattr]
  · have ha := h.attrs
    refine ⟨?_, ?_, ?_, ?_, ?_, ?_, ?_, ?_⟩ <;> simp only [hattr, hmode, huid, hgid]
    exacts [ha.type, ha.mode, ha.uid, ha.gid, ha.masterMode, ha.masterUid, ha.masterGid, ha.permissions]
  · rw [hattr, hlocal]
  · simp only [hlocal]
    omega
  · simp only [hlocal]
    omega

theorem replicaInv_openTrunc (hsteady : SteadyOp s .openTrunc)
    (hst : s.step .openTrunc = some s') : ReplicaInv s' := by
  obtain rfl := Option.some.inj hst
  obtain ⟨hdata, hflag, hattr, hlocal, hmaster, ⟨hmode, huid, hgid⟩, hmod⟩ := s.fh.zfsOpenTrunc_spec h.flag
  rw [u64_of_lt hsteady] at hattr hlocal
  have hle := h.le
  have hover : s.fh.metadata.localVersion + 1 < 2 ^ 64 := hsteady
  refine ⟨fun i hi _ => ?_, ?_, hflag, ?_, Or.inl ?_, hmaster.trans h.known, ?_, ?_⟩
  · simp only [hdata, FlatFile.size_truncate] at hi
    exact absurd hi (Nat.not_lt_zero i)
  · simp [hdata]
  · have ha := h.attrs
    refine ⟨?_, ?_, ?_, ?_, ?_, ?_, ?_, ?_⟩ <;> simp only [hattr, hmode, huid, hgid]
    exacts [ha.type, ha.mode, ha.uid, ha.gid, ha.masterMode, ha.masterUid, ha.masterGid, ha.permissions]
  · rw [hattr, hlocal]
  · simp only [hlocal]
    omega
  · simp only [hlocal]
    omega

/-- An operation on the trees only, which loses no modified byte of the file. -/
theorem replicaInv_trees {fh : InternalFh} {users : ℕ}
    (hsame : InternalFh.SameFile { s.fh with users := users } fh) (hflag : fh.FlagOk)
    (hmod : ∀ i < s.fh.attr.size, i ∈ s.fh.modified → i ∈ fh.modified) : ReplicaInv { s with fh := fh } := by
  have hsize := h.size
  have ha := h.attrs
  refine ⟨fun i hi hm => ?_, ?_, hflag, ⟨?_, ?_, ?_, ?_, ?_, ?_, ?_, ?_⟩, ?_, ?_, ?_, ?_⟩
  · simp only [hsame.data] at hi ⊢
    exact h.copied i hi fun hc => hm (hmod i (by omega) hc)
  all_goals simp only [hsame.attr, hsame.data, hsame.localVersion, hsame.masterVersion, hsame.mode, hsame.uid,
    hsame.gid]
  exacts [hsize, ha.type, ha.mode, ha.uid, ha.gid, ha.masterMode, ha.masterUid, ha.masterGid, ha.permissions,
    h.cached, h.known, h.le, h.bound]

theorem replicaInv_openFile (hst : s.step .openFile = some s') : ReplicaInv s' := by
  obtain rfl := Option.some.inj hst
  obtain ⟨hsame, hflag, hmod⟩ := InternalFh.loadIntervalTrees_spec h.flag
  exact replicaInv_trees h hsame hflag hmod

theorem replicaInv_closeFile (hst : s.step .closeFile = some s') : ReplicaInv s' := by
  simp only [step] at hst
  split_ifs at hst
  obtain rfl := Option.some.inj hst
  obtain ⟨hsame, hflag, hnodes⟩ := InternalFh.saveIntervalTrees_spec h.flag
  refine replicaInv_trees h hsame hflag fun i _ hm => ?_
  rw [IntervalTree.mem_def, hnodes]
  exact hm

theorem replicaInv_getattr (hst : s.step .getattr = some s') : ReplicaInv s' := by
  obtain rfl := Option.some.inj hst
  have ha := h.attrs
  exact ⟨h.copied, le_rfl, h.flag, ⟨ha.type, ha.mode, ha.uid, ha.gid, ha.masterMode, ha.masterUid, ha.masterGid,
    ha.permissions⟩, Or.inl rfl, h.known, h.le, h.bound⟩

end

theorem SameAttrs.unchanged (h : SameAttrs s) :
    metadataAttrChange s.fh.metadata s.fh.attr = false ∧
      metadataAttrChange s.fh.metadata s.master.getattr = false := by
  simp [metadataAttrChange, Master.getattr, h.mode, h.uid, h.gid, h.masterMode, h.masterUid, h.masterGid]

/-- With the version of the master known there is no conflict and nothing to clear. -/
theorem detectConflict_known {masterFh : ZfsFh} {fh : InternalFh} {attr : Fattr} {place : Place}
    {lc schedule : Bool} (h : fh.metadata.masterVersion = attr.version) :
    (detectConflict masterFh fh attr place lc false schedule).fh = fh := by
  simp [detectConflict, h]

section
variable (h : ReplicaInv s)

include h

theorem synchronize_quiet (hlc : localChanged s.fh s.master.getattr = false)
    (hrc : remoteChanged s.fh s.master.getattr = false) :
    s.synchronize.fh = s.fh ∧ s.synchronize.master = s.master := by
  have hpushed : s.pushed = s.master := by simp [pushed, pushes, hlc]
  refine ⟨?_, hpushed⟩
  simp only [synchronize, hpushed, synchronizeFile, hlc, hrc, Bool.xor_false, Bool.false_eq_true, if_false,
    synchronizePlace, ne_eq, not_true_eq_false, h.attrs.unchanged.2]
  exact detectConflict_known h.known

/-- The local size is newer: it is pushed, and the version of the answer becomes the version known
of the master. -/
theorem synchronize_push (hlc : localChanged s.fh s.master.getattr = true)
    (hrc : remoteChanged s.fh s.master.getattr = false) (hsize : s.fh.attr.size ≠ s.master.data.size) :
    s.synchronize.fh = { s.fh with metadata.masterVersion := u64 (s.master.version + 1) } ∧
      s.synchronize.master = { s.master with
        version := u64 (s.master.version + 1), data := s.master.data.truncate s.fh.attr.size } := by
  have ha := h.attrs
  have hne : metadataAttrEq s.fh.attr s.master.getattr = false := by
    simp [metadataAttrEq, metadataSizeChange, ha.type, Master.getattr, hsize]
  have hmode : getMode s.fh.attr.mode = s.fh.metadata.mode := by rw [ha.mode, ha.permissions]
  have hpushed : s.pushed = { s.master with
      version := u64 (s.master.version + 1), data := s.master.data.truncate s.fh.attr.size } := by
    simp only [pushed, pushes, hlc, hrc, hne, Bool.not_false, Bool.and_self, if_true, ha.type, Master.setattr,
      Option.map_some, Option.getD_some, hmode, ha.uid, ha.gid, ← ha.masterMode, ← ha.masterUid,
      ← ha.masterGid, Option.isSome_some, setattrData]
  refine ⟨?_, hpushed⟩
  have hunchanged : metadataAttrChange { s.fh.metadata with masterVersion := s.pushed.version }
      s.pushed.getattr = false := by
    simp [hpushed, metadataAttrChange, Master.getattr, ha.masterMode, ha.masterUid, ha.masterGid]
  have hversion : u64 (s.master.version + 1) = s.pushed.version := by rw [hpushed]
  rw [hversion]
  have hattrs : synchronizeAttributes
      ⟨(ZFS_OK, s.pushed.getattr), ZFS_OK, true, (ZFS_OK, s.masterFh, s.pushed.getattr)⟩ s.fh s.master.getattr true =
      ⟨ZFS_OK, false, { s.fh with metadata.masterVersion := s.pushed.version }, s.pushed.getattr⟩ := by
    simp only [synchronizeAttributes, if_true, hne, Bool.false_eq_true, if_false, ne_eq, not_true_eq_false,
      finishAttributes, hmode, ha.uid, ha.gid]
    rfl
  simp only [synchronize, synchronizeFile, hlc, hrc, Bool.xor_false, if_true, hattrs, ne_eq, not_true_eq_false,
    if_false, Bool.false_eq_true, synchronizePlace, hunchanged]
  exact detectConflict_known rfl

/-- A synchronisation changes nothing, or it gives the master the size of the local file. -/
theorem sync_spec :
    s.sync.fh = s.fh ∧ s.sync.master = s.master ∨
      s.master.version < s.fh.metadata.localVersion ∧ s.fh.attr.version = s.fh.metadata.localVersion ∧
      s.sync.fh = { s.fh with metadata.masterVersion := u64 (s.master.version + 1) } ∧
      s.sync.master = { s.master with
        version := u64 (s.master.version + 1), data := s.master.data.truncate s.fh.attr.size } := by
  obtain ⟨hlocal, hremote⟩ := h.attrs.unchanged
  unfold sync
  split_ifs with hchange
  · by_cases hsize : s.fh.attr.size = s.master.data.size
    · refine Or.inl (synchronize_quiet h ?_ ?_)
      · simp [localChanged, hlocal, metadataSizeChange, Master.getattr, hsize]
      · rw [remoteChanged, hremote]
        simp [metadataSizeChange, Master.getattr, hsize]
    · have hcached := h.cached.resolve_right hsize
      have hrc : remoteChanged s.fh s.master.getattr = false := by
        have hle : ¬ s.fh.attr.version < s.master.version := by
          rw [hcached]
          exact not_lt.mpr h.le
        rw [remoteChanged, hremote]
        simp [Master.getattr, hle]
      by_cases hlt : s.master.version < s.fh.attr.version
      · rw [hcached] at hlt
        refine Or.inr ⟨hlt, hcached, synchronize_push h ?_ hrc hsize⟩
        simp [localChanged, metadataSizeChange, h.attrs.type, Master.getattr, hsize, hcached, hlt]
      · refine Or.inl (synchronize_quiet h ?_ hrc)
        simp [localChanged, hlocal, Master.getattr, hlt]
  · exact Or.inl ⟨rfl, rfl⟩

theorem replicaInv_sync (hst : s.step .sync = some s') : ReplicaInv s' := by
  obtain rfl := Option.some.inj hst
  have ha := h.attrs
  rcases sync_spec h with ⟨hfh, hmaster⟩ | ⟨hlt, hcached, hfh, hmaster⟩
  · refine ⟨?_, ?_, ?_, ⟨?_, ?_, ?_, ?_, ?_, ?_, ?_, ?_⟩, ?_, ?_, ?_, ?_⟩ <;> simp only [hfh, hmaster]
    exacts [h.copied, h.size, h.flag, ha.type, ha.mode, ha.uid, ha.gid, ha.masterMode, ha.masterUid,
      ha.masterGid, ha.permissions, h.cached, h.known, h.le, h.bound]
  · have hbound := h.bound
    have hsize := h.size
    rw [u64_of_lt (by omega)] at hfh hmaster
    refine ⟨fun i hi hm => ?_, ?_, ?_, ⟨?_, ?_, ?_, ?_, ?_, ?_, ?_, ?_⟩, ?_, ?_, ?_, ?_⟩
    · simp only [hfh, hmaster] at hi hm ⊢
      rw [FlatFile.byte_truncate_of_lt _ (by omega)]
      exact h.copied i hi hm
    all_goals simp only [hfh, hmaster]
    exacts [hsize, h.flag, ha.type, ha.mode, ha.uid, ha.gid, ha.masterMode, ha.masterUid,
      ha.masterGid, ha.permissions, Or.inl hcached, hlt, h.bound]

/-- After a reintegration without errors the master has the local file, and its version is known. -/
theorem reintegrate_spec {env : ReintEnv}
    (hsteady : SteadyOp s (.reintegrate env)) : let r := reintegrateFileBlocks env s.fh s.master
    r.fh.data = s.fh.data ∧ r.master.data = s.fh.data ∧ ReplicaInv { s with fh := r.fh, master := r.master } := by
  obtain ⟨hclean, hsize, hproper, hroom⟩ := hsteady
  have ha := h.attrs
  have hb := h.bound
  have hle := h.le
  have hknown := h.known
  have hv : s.master.version < 2 ^ 64 := by omega
  have hdata := reintegrateStages_data hclean hsize hproper h.copied
  have hloop := reintegrateStages_looped env s.fh s.master
  have hinc := reintegrateStages_increase env s.fh hv
  have hcounted := reintegrateStages_counted hclean s.fh hv
  rw [reintegrateFileBlocks_privileged hclean.privilege]
  set t := reintegrateStages env s.fh s.master
  have hmeta : t.fh.metadata = s.fh.metadata := hloop.metadata
  rw [← hknown, ← hmeta] at hcounted
  have hversions := finish_versions hclean (by rw [hmeta]; omega) (by rw [hmeta]; exact hb)
    (by rw [hmeta]; omega) hcounted
  obtain ⟨hrdata, hrmod, hrmeta, -, hrattr, hrmdata, hrmode, hruid, hrgid⟩ := raiseVersion_fh env t
  set u := t.raiseVersion env
  obtain ⟨hvdata, hvmod, -, hvattr, hvmeta⟩ := reintegratedVersions_same u.fh u.versionIncrease
  set fh := u.fh.reintegratedVersions u.versionIncrease
  have hflag : fh.FlagOk := by
    intro hf
    have hf : s.fh.metadata.modifiedTree = false := by
      rw [← hmeta, ← hrmeta]
      exact (congrArg Metadata.modifiedTree hvmeta).symm.trans hf
    have hnodes := hloop.nodes (h.flag hf)
    rw [← hrmod, ← hvmod] at hnodes
    exact hnodes
  obtain ⟨hsame, hmaster, -, hfin⟩ := finish_spec u
  have hfdata : fh.data = s.fh.data := hvdata.trans (hrdata.trans hloop.data)
  have hfattr : fh.attr = { s.fh.attr with version := fh.attr.version } := by
    rw [hvattr, hrattr, hloop.attr]
    rfl
  have hfmeta : fh.metadata = { s.fh.metadata with
      localVersion := fh.metadata.localVersion, masterVersion := fh.metadata.masterVersion } := by
    rw [hvmeta, hrmeta, hmeta]
  have hudata : u.master.data = s.fh.data := hrmdata.trans hdata
  refine ⟨hsame.data.trans hfdata, hudata, ⟨fun i _ _ => ?_, ?_, hfin hflag,
    ⟨?_, ?_, ?_, ?_, ?_, ?_, ?_, ?_⟩, Or.inr ?_, ?_, ?_, ?_⟩⟩
  all_goals simp only [hmaster, hsame.attr, hsame.data, hsame.localVersion, hsame.masterVersion, hsame.mode,
    hsame.uid, hsame.gid]
  · rw [hfdata, hudata]
  · rw [hfdata, hfattr]
    exact h.size
  · rw [hfattr]
    exact ha.type
  · rw [hfattr, hfmeta]
    exact ha.mode
  · rw [hfattr, hfmeta]
    exact ha.uid
  · rw [hfattr, hfmeta]
    exact ha.gid
  · rw [hrmode, hloop.attrs.1, hfmeta]
    exact ha.masterMode
  · rw [hruid, hloop.attrs.2.1, hfmeta]
    exact ha.masterUid
  · rw [hrgid, hloop.attrs.2.2, hfmeta]
    exact ha.masterGid
  · rw [hfmeta]
    exact ha.permissions
  · rw [hfattr, hudata]
    exact hsize
  · exact hversions.1
  · rw [← hversions.1]
    exact hversions.2.1
  · exact hversions.2.2

theorem replicaInv_step {op : ReplicaOp} (hsteady : SteadyOp s op)
    (hst : s.step op = some s') : ReplicaInv s' := by
  cases op with
  | write offset bytes => exact replicaInv_write h hsteady hst
  | setattr size => exact replicaInv_setattr h hsteady hst
  | openTrunc => exact replicaInv_openTrunc h hsteady hst
  | openFile => exact replicaInv_openFile h hst
  | closeFile => exact replicaInv_closeFile h hst
  | getattr => exact replicaInv_getattr h hst
  | sync => exact replicaInv_sync h hst
  | reintegrate env =>
    simp only [step] at hst
    split_ifs at hst
    obtain rfl := Option.some.inj hst
    exact (reintegrate_spec h hsteady).2.2

end

/-- In every run of steady operations a reintegration leaves the master with the size and the bytes of
the local file. -/
theorem reintegrate_converges {s s' : Replica} {env : ReintEnv}
    (h : Runs.Reach step SteadyOp ReplicaStart s) (hsteady : SteadyOp s (.reintegrate env))
    (hst : s.step (.reintegrate env) = some s') :
    s'.master.data.size = s'.fh.data.size ∧ ∀ i, s'.master.data.byte i = s'.fh.data.byte i := by
  have hinv : ReplicaInv s := h.inv (fun _ => replicaInv_start) fun _ _ _ hi => replicaInv_step hi
  obtain ⟨hfh, hmaster, -⟩ := reintegrate_spec hinv hsteady
  simp only [step] at hst
  split_ifs at hst
  obtain rfl := Option.some.inj hst
  simp only [hfh, hmaster]
  exact ⟨trivial, fun _ => trivial⟩

def fourSynced : Replica where
  fh := InternalFh.synced [1, 1, 1, 1]
  master := Master.synced [1, 1, 1, 1]
  masterFh := ⟨1, 1, 1, 1, 1⟩
  place := .plain

def promptEnv : ReintEnv where
  slow := false
  privilege := ZFS_OK
  piece := fun _ => ⟨none, false, fun _ => .ok ZFS_MAXDATA⟩
  getattr := none
  setattr := .ok
  reintegrateVer := .ok

theorem promptEnv_clean : promptEnv.Clean :=
  ⟨rfl, fun _ => rfl, fun _ => rfl, fun _ _ => ⟨_, rfl⟩, rfl, rfl, rfl⟩

theorem fourSynced_start : ReplicaStart fourSynced :=
  ⟨rfl, rfl, rfl, ⟨rfl, rfl, rfl, rfl, rfl, rfl, rfl, rfl⟩, rfl, rfl, le_rfl, by decide⟩

/-- Two bytes are appended and reach the master. -/
theorem reintegrate_converges_append :
    ∃ s', Runs.run step fourSynced [.write 4 [7, 7], .reintegrate promptEnv] = some s' ∧
      (s'.master.data.size = s'.fh.data.size ∧ ∀ i, s'.master.data.byte i = s'.fh.data.byte i) ∧
      s'.master.data.size = 6 ∧ s'.master.data.byte 5 = 7 := by
  have h : Runs.Reach step SteadyOp ReplicaStart fourSynced := .init fourSynced_start
  have h := h.step (e := ReplicaOp.write 4 [7, 7])
    ⟨by decide, fun i hi hlt => absurd hi (not_le.mpr hlt)⟩ rfl
  refine ⟨_, rfl, reintegrate_converges h ⟨promptEnv_clean, rfl, by decide, by decide⟩ rfl, by decide, by decide⟩

/-- A file that is shortened and extended again keeps its old bytes at the master, and one that is
truncated by opening it keeps all of them. -/
theorem reintegrate_diverges :
    ReplicaStart fourSynced ∧ promptEnv.Clean ∧
    (∃ s', Runs.run step fourSynced [.setattr 2, .setattr 4, .reintegrate promptEnv] = some s' ∧
      s'.fh.modified.nodes = [] ∧ s'.fh.data.byte 2 = 0 ∧ s'.master.data.byte 2 = 1) ∧
    ∃ s', Runs.run step fourSynced [.openTrunc, .reintegrate promptEnv] = some s' ∧
      s'.fh.modified.nodes = [] ∧ s'.fh.data.size = 0 ∧ s'.master.data.size = 4 :=
  ⟨fourSynced_start, promptEnv_clean, ⟨_, rfl, by decide, by decide, by decide⟩, _, rfl, by decide, by decide,
    by decide⟩

end ZFS
