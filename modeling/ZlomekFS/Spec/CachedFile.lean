import ZlomekFS.Lib.Runs
import ZlomekFS.Spec.Reintegrate
import ZlomekFS.Spec.UpdateFile

/-! A cached regular file that has a master copy: all operations that change its versions or its
interval trees, in any order and with any answers of the master. The resolutions of a conflict on
the versions are `resolve_conflict_discard_local` and `resolve_conflict_discard_remote` of `update.c`. -/

namespace ZFS
open Spans

/-! ## Resolving a conflict -/

structure ResolveEnv where
  localSetattr : ℤ
  setattr : ℤ × Fattr
  reintegrateVer : ℤ

structure ResolveRes where
  code : ℤ
  fh : InternalFh
  versionInc : Option ℕ

def resolvedAttrs (wanted other : Fattr) : Sattr where
  mode := if wanted.mode ≠ other.mode then some wanted.mode else none
  uid := if wanted.uid ≠ other.uid then some wanted.uid else none
  gid := if wanted.gid ≠ other.gid then some wanted.gid else none

def attrsConflict (fh : InternalFh) (remote : Fattr) : Bool :=
  metadataAttrChange fh.metadata fh.attr && metadataAttrChange fh.metadata remote

namespace InternalFh

def adoptAttrs (fh : InternalFh) (fa : Fattr) : InternalFh :=
  { fh with metadata.mode := getMode fa.mode, metadata.uid := fa.uid, metadata.gid := fa.gid }

def storeTrees (fh : InternalFh) : InternalFh :=
  (if 1 < fh.users then (fh.flushIntervalTree .updated).flushIntervalTree .modified else fh).saveIntervalTrees

/-- The versions after the resolution of a conflict; the file has to be updated again. -/
def resolvedVersions (fh : InternalFh) (localVersion masterVersion : ℕ) : InternalFh :=
  { fh with
    metadata.localVersion := localVersion
    metadata.masterVersion := masterVersion
    metadata.complete := false
    metadata.updatedTree := true }.setAttrVersion

def discardTrees (fh : InternalFh) : InternalFh :=
  let fh := fh.loadIntervalTrees
  { fh with updated := fh.updated.empty, modified := fh.modified.empty }.storeTrees

/-- The trees when the local file replaces the remote one: whatever is updated is sent. -/
def claimTrees (fh : InternalFh) : InternalFh :=
  let fh := fh.loadIntervalTrees
  { fh with modified := fh.modified.add fh.updated, updated := fh.updated.empty }.storeTrees

end InternalFh

def discardLocalVersions (env : ResolveEnv) (fh : InternalFh) (remote : Fattr) : ResolveRes :=
  let version := if remote.version < fh.attr.version then u64 (fh.attr.version + 1) else u64 (remote.version + 1)
  ⟨env.reintegrateVer, fh.discardTrees.resolvedVersions version version, some (sub64 version remote.version)⟩

def resolveConflictDiscardLocal (env : ResolveEnv) (fh : InternalFh) (remote : Fattr) : ResolveRes :=
  if attrsConflict fh remote then
    if env.localSetattr ≠ ZFS_OK then ⟨env.localSetattr, fh, none⟩
    else
      let fa := { localSetattr fh (resolvedAttrs remote fh.attr) with version := fh.metadata.localVersion }
      discardLocalVersions env ({ fh with attr := fa }.adoptAttrs fa) remote
  else discardLocalVersions env fh remote

def discardRemoteVersions (env : ResolveEnv) (fh : InternalFh) (remote : Fattr) : ResolveRes :=
  let version := if remote.version < fh.attr.version then fh.attr.version else u64 (remote.version + 1)
  ⟨env.reintegrateVer, fh.claimTrees.resolvedVersions (u64 (version + 1)) version,
    some (sub64 version remote.version)⟩

def resolveConflictDiscardRemote (env : ResolveEnv) (fh : InternalFh) (remote : Fattr) : ResolveRes :=
  if attrsConflict fh remote then
    if env.setattr.1 ≠ ZFS_OK then ⟨env.setattr.1, fh, none⟩
    else discardRemoteVersions env (fh.adoptAttrs env.setattr.2) env.setattr.2
  else discardRemoteVersions env fh remote

/-! ## The operations -/

section
variable (α : Type)

inductive CachedOp
  | write (offset : ℕ) (bytes : List UInt8)
  | setattr (sa : Sattr)
  | openTrunc
  | openFile
  | closeFile
  | synchronize (env : SyncEnv) (masterFh : ZfsFh) (attr : Fattr) (place : Place) (schedule samePlace : Bool)
  | clear (version : ℕ)
  /-- The update of the whole file, or of a range before it is read. -/
  | update (env : UpdEnv α) (slow : Bool) (junk : ℕ → ℕ) (size : ℕ)
  | updateBlocks (env : UpdEnv α) (slow : Bool) (blocks : List Span) (junk : ℕ → ℕ)
  | reintegrate (env : ReintEnv) (master : Master)
  | discardLocal (env : ResolveEnv) (remote : Fattr)
  | discardRemote (env : ResolveEnv) (remote : Fattr)

variable {α} [DecidableEq α] (md5 : List UInt8 → α)

/-- One operation. Those on the data of the file need the trees loaded. -/
def cachedStep (fh : InternalFh) : CachedOp α → Option InternalFh
  | .write offset bytes => if 0 < fh.users then some (fh.zfsWrite offset bytes) else none
  | .setattr sa => some (fh.zfsSetattr sa)
  | .openTrunc => some fh.zfsOpenTrunc
  | .openFile => some fh.loadIntervalTrees
  | .closeFile => if 0 < fh.users then some fh.saveIntervalTrees else none
  | .synchronize env masterFh attr place schedule samePlace =>
    some (synchronizeFile env masterFh fh attr place schedule samePlace).fh
  | .clear version => some (fh.updateFileClearUpdatedTree1 version)
  | .update env slow junk size =>
    if 0 < fh.users then some (updatePart md5 env slow junk fh size).2 else none
  | .updateBlocks env slow blocks junk =>
    if 0 < fh.users then some (updateFileBlocks md5 env slow blocks junk fh).fh else none
  | .reintegrate env master =>
    if 0 < fh.users then some (reintegrateFileBlocks env fh master).fh else none
  | .discardLocal env remote => some (resolveConflictDiscardLocal env fh remote).fh
  | .discardRemote env remote => some (resolveConflictDiscardRemote env fh remote).fh

end

end ZFS
