import ZlomekFS.Spec.CachedFile

/-! `resolve_conflict_discard_local` and `resolve_conflict_discard_remote` of `update.c`: a conflict on the versions of a
regular file is resolved in favour of one side. There are four copies of the version: the one of the local file, the
version of the master that its metadata record, the cached one of the remote file in the conflict directory, and the
one of the file on the master. -/

namespace ZFS

structure ConflictFiles where
  fh : InternalFh
  remote : Fattr
  master : Fattr
  scheduled : Bool

structure DiscardEnv where
  localSetattr : ℤ
  remoteSetattr : ℤ
  load : Bool
  flushUpdated : Bool
  flushModified : Bool
  save : Bool
  reintegrateVer : ℤ

/-- What a successful `remote_setattr` does to the file on the master; without a size the version stays. -/
def masterSetattr (attr : Fattr) (sa : Sattr) : Fattr :=
  { attr with
    mode := (sa.mode.map getMode).getD attr.mode
    uid := sa.uid.getD attr.uid
    gid := sa.gid.getD attr.gid }

/-- The interval trees are loaded, changed and saved; whether that succeeded. -/
def InternalFh.changeTrees (env : DiscardEnv) (change : InternalFh → InternalFh) (fh : InternalFh) :
    InternalFh × Bool :=
  if !env.load then (fh, false)
  else
    let fh := change fh.loadIntervalTrees
    if 1 < fh.users && !env.flushUpdated then (fh.saveIntervalTrees, false)
    else
      let fh := if 1 < fh.users then fh.flushIntervalTree .updated else fh
      if 1 < fh.users && !env.flushModified then (fh.saveIntervalTrees, false)
      else
        let fh := if 1 < fh.users then fh.flushIntervalTree .modified else fh
        if !env.save then (fh, false) else (fh.saveIntervalTrees, true)

/-- `remote_reintegrate_ver` for the remote file: the cached version and the one on the master. -/
def ConflictFiles.remoteReintegrateVer (env : DiscardEnv) (s : ConflictFiles) (versionInc : ℕ) : ConflictFiles :=
  let s := { s with remote.version := u64 (s.remote.version + versionInc) }
  if env.reintegrateVer = ZFS_OK then { s with master.version := u64 (s.master.version + versionInc) } else s

/-- Both functions from the point where the new version of the master is known. -/
def ConflictFiles.adopt (env : DiscardEnv) (s : ConflictFiles) (change : InternalFh → InternalFh)
    (version localVersion : ℕ) : ℤ × ConflictFiles :=
  let versionInc := sub64 version s.remote.version
  let (fh, ok) := s.fh.changeTrees env change
  if !ok then (ZFS_METADATA_ERROR, { s with fh := fh })
  else
    let s := { s with fh := fh.resolvedVersions localVersion version }
    let s := { s with remote.version := u64 (s.remote.version + versionInc) }
    let s := s.remoteReintegrateVer env versionInc
    (env.reintegrateVer, { s with scheduled := true })

def ConflictFiles.discardLocal (env : DiscardEnv) (s : ConflictFiles) : ℤ × ConflictFiles :=
  let version := if s.remote.version < s.fh.attr.version then u64 (s.fh.attr.version + 1) else u64 (s.remote.version + 1)
  s.adopt env (fun fh => { fh with updated := fh.updated.empty, modified := fh.modified.empty }) version version

def ConflictFiles.resolveConflictDiscardLocal (env : DiscardEnv) (s : ConflictFiles) : ℤ × ConflictFiles :=
  if attrsConflict s.fh s.remote then
    if env.localSetattr ≠ ZFS_OK then (env.localSetattr, s)
    else
      let fa := localSetattr s.fh (resolvedAttrs s.remote s.fh.attr)
      let fa := { fa with version := s.fh.metadata.localVersion }
      { s with fh := { s.fh with attr := fa }.adoptAttrs fa }.discardLocal env
  else s.discardLocal env

def ConflictFiles.discardRemote (env : DiscardEnv) (s : ConflictFiles) : ℤ × ConflictFiles :=
  let version := if s.remote.version < s.fh.attr.version then s.fh.attr.version else u64 (s.remote.version + 1)
  s.adopt env (fun fh => { fh with modified := fh.modified.add fh.updated, updated := fh.updated.empty }) version
    (u64 (version + 1))

def ConflictFiles.resolveConflictDiscardRemote (env : DiscardEnv) (s : ConflictFiles) : ℤ × ConflictFiles :=
  if attrsConflict s.fh s.remote then
    if env.remoteSetattr ≠ ZFS_OK then (env.remoteSetattr, s)
    else
      let fa := masterSetattr s.master (resolvedAttrs s.fh.attr s.remote)
      { s with fh := s.fh.adoptAttrs fa, remote := fa, master := fa }.discardRemote env
  else s.discardRemote env

def dataConflict (fh : InternalFh) (attr : Fattr) : Bool :=
  fh.attr.type = .reg && fh.metadata.masterVersion < fh.attr.version && fh.metadata.masterVersion < attr.version

/-- `try_resolve_conflict` for a local and a remote file that belong together. -/
def tryResolveConflict (fh : InternalFh) (remote : Fattr) : Bool :=
  !(fh.metadata.masterVersion < fh.attr.version && fh.metadata.masterVersion < remote.version) &&
    !(metadataAttrChange fh.metadata fh.attr && metadataAttrChange fh.metadata remote)

/-! ## What the functions are for -/

/-- Versions that fit `uint64_t`. A file of the master has one. -/
structure ConflictFiles.Versioned (s : ConflictFiles) : Prop where
  remotePos : 0 < s.remote.version
  localLt : s.fh.attr.version < 2 ^ 64
  metadataLt : s.fh.metadata.localVersion < 2 ^ 64
  remoteLt : s.remote.version < 2 ^ 64
  masterLt : s.master.version < 2 ^ 64

/-- The local changes are given up; nothing is said of the cached version. -/
structure LocalDiscarded (s : ConflictFiles) : Prop where
  recorded : s.fh.metadata.localVersion = s.fh.metadata.masterVersion
  master : s.fh.metadata.masterVersion = s.master.version
  updated : ∀ i, i ∉ s.fh.updated
  modified : ∀ i, i ∉ s.fh.modified
  update : updateP s.fh s.master = true
  reintegrate : reintegrateP s.fh s.master = false
  scheduled : s.scheduled = true
  noConflict : dataConflict s.fh s.master = false

/-- The changes on the master are given up, with the trees `old` before; nothing is said of the cached version. -/
structure RemoteDiscarded (old : InternalFh) (s : ConflictFiles) : Prop where
  newer : s.fh.metadata.masterVersion < s.fh.metadata.localVersion
  master : s.fh.metadata.masterVersion = s.master.version
  updated : ∀ i, i ∉ s.fh.updated
  modified : ∀ i, i ∈ s.fh.modified ↔ i ∈ old.modified ∨ i ∈ old.updated
  reintegrate : reintegrateP s.fh s.master = true
  scheduled : s.scheduled = true
  noConflict : dataConflict s.fh s.master = false

def ConflictFiles.CachedRight (s : ConflictFiles) : Prop := s.remote.version = s.fh.metadata.masterVersion

end ZFS
