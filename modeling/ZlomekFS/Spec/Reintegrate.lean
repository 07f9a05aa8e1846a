import ZlomekFS.Spec.FileOps
import ZlomekFS.Spec.Master

/-! `reintegrate_file_blocks` of `update.c`: the modified intervals are read from the local file and
written to the master one after the other, each is removed from the tree once the master has it.
Then the size is adjusted and the versions are settled. -/

namespace ZFS
open Spans

/-- Offset and count of the next piece of a file to reintegrate from `offset` on. The count is the
length of the whole interval found, also where `offset` lies inside the interval. -/
def reintegrateRange (modified : IntervalTree) (offset : ℕ) : Option (ℕ × ℕ) :=
  (modified.lookup offset).map fun node =>
    (max offset node.start, min (node.stop - node.start) ZFS_MAXDATA)

structure PieceAns where
  read : Option Err
  busy : Bool
  write : ℕ → WriteAns

structure ReintEnv where
  slow : Bool
  privilege : ℤ
  piece : ℕ → PieceAns
  getattr : Option Err
  setattr : CallAns
  reintegrateVer : CallAns

structure ReintEnv.Clean (env : ReintEnv) : Prop where
  privilege : env.privilege = ZFS_OK
  read : ∀ offset, (env.piece offset).read = none
  free : ∀ offset, (env.piece offset).busy = false
  write : ∀ offset k, ∃ n, (env.piece offset).write k = .ok n
  getattr : env.getattr = none
  setattr : env.setattr = .ok
  reintegrateVer : env.reintegrateVer = .ok

structure Sent where
  code : ℤ
  count : ℕ
  /-- What was added to `version_increase`. -/
  acked : ℕ
  master : Master

/-- `full_remote_write_dentry` from the byte `total` of the buffer on; every request that succeeds
writes at least one byte. -/
def fullRemoteWriteDentry (ans : ℕ → WriteAns) (offset : ℕ) (buf : List UInt8) : ℕ → Sent → Sent
  | 0, s => s
  | fuel + 1, s =>
    if s.count < buf.length then
      let store n := s.master.write (offset + s.count) ((buf.drop s.count).take n)
      match ans s.count with
      | .ok n =>
        let written := min (n + 1) (buf.length - s.count)
        fullRemoteWriteDentry ans offset buf fuel
          { s with count := s.count + written, acked := s.acked + 1, master := store written }
      | .fails r => { s with code := r }
      | .lost n r => { s with code := r, master := store (n + 1) }
    else s

structure Reint where
  code : ℤ
  fh : InternalFh
  master : Master
  versionIncrease : ℕ

/-- One piece: it is read, sent and removed from the tree. The offset to go on from is missing where
the loop ends. -/
def Reint.sendPiece (env : ReintEnv) (s : Reint) (offset count : ℕ) : Reint × Option ℕ :=
  match (env.piece offset).read with
  | some r => ({ s with code := r }, none)
  | none =>
    let buf := s.fh.data.read offset count
    if 0 < buf.length ∧ env.slow ∧ (env.piece offset).busy then ({ s with code := ZFS_SLOW_BUSY }, none)
    else
      let sent := fullRemoteWriteDentry (env.piece offset).write offset buf buf.length ⟨ZFS_OK, 0, 0, s.master⟩
      let s := { s with code := sent.code, master := sent.master
                        versionIncrease := s.versionIncrease + sent.acked }
      if sent.code ≠ ZFS_OK then (s, none)
      else if h : 0 < sent.count then
        ({ s with fh.modified := s.fh.modified.delete offset (offset + sent.count) (by omega) },
          some (offset + sent.count))
      else (s, none)

def reintegrateRound (env : ReintEnv) (offset : ℕ) (s : Reint) : Reint × Option ℕ :=
  if offset < s.fh.attr.size then
    match reintegrateRange s.fh.modified offset with
    | none => (s, none)
    | some (offset, count) => s.sendPiece env offset count
  else (s, none)

def reintegrateLoop (env : ReintEnv) : ℕ → ℕ → Reint → Reint
  | 0, _, s => s
  | fuel + 1, offset, s =>
    match reintegrateRound env offset s with
    | (s, some offset) => reintegrateLoop env fuel offset s
    | (s, none) => s

/-- The size of the remote file is changed to the size in the cached attributes. -/
def Reint.adjustSize (env : ReintEnv) (s : Reint) : Reint :=
  if env.getattr = none ∧ s.fh.attr.size ≠ s.master.data.size then
    let master := s.master.setattr { size := some s.fh.attr.size }
    match env.setattr with
    | .ok => { s with master := master, versionIncrease := s.versionIncrease + 1 }
    | .fails performed _ => if performed then { s with master := master } else s
  else s

def Reint.diff (s : Reint) : ℕ :=
  sub64 s.fh.metadata.localVersion (u64 (s.fh.metadata.masterVersion + s.versionIncrease))

/-- Whether `remote_reintegrate_ver` is called; otherwise only the privilege is given back. -/
def Reint.raises (s : Reint) : Bool := 0 < s.diff && s.fh.modified.nodes = []

/-- `remote_reintegrate_ver`; it changes the cached version before it knows the answer. -/
def Reint.raiseVersion (env : ReintEnv) (s : Reint) : Reint :=
  if s.raises then
    let diff := s.diff
    let s := { s with fh.attr.version := u64 (s.fh.attr.version + diff) }
    match env.reintegrateVer with
    | .ok => { s with master := s.master.reintegrateVer diff
                      versionIncrease := u64 (s.versionIncrease + diff) }
    | .fails performed _ => if performed then { s with master := s.master.reintegrateVer diff } else s
  else s

def InternalFh.aheadOf (fh : InternalFh) (masterVersion : ℕ) : ℕ :=
  if fh.modified.nodes ≠ [] then
    if fh.metadata.localVersion ≤ masterVersion then u64 (masterVersion + 1) else fh.metadata.localVersion
  else
    if fh.metadata.localVersion < masterVersion then masterVersion else fh.metadata.localVersion

/-- The versions in the metadata after `versionIncrease` changes at the master. -/
def InternalFh.reintegratedVersions (fh : InternalFh) (versionIncrease : ℕ) : InternalFh :=
  if versionIncrease = 0 then fh
  else
    let masterVersion := u64 (fh.metadata.masterVersion + versionIncrease)
    { fh with
      metadata.masterVersion := masterVersion
      metadata.localVersion := fh.aheadOf masterVersion }.setAttrVersion

def Reint.finish (s : Reint) : Reint :=
  { s with fh := { s.fh.reintegratedVersions s.versionIncrease with
    reintegrating := false }.flushDeleted .modified }

def reintegrateFileBlocks (env : ReintEnv) (fh : InternalFh) (master : Master) : Reint :=
  if env.privilege = ZFS_BUSY then ⟨ZFS_OK, fh, master, 0⟩
  else if env.privilege ≠ ZFS_OK then ⟨env.privilege, fh, master, 0⟩
  else
    let s := reintegrateLoop env (fh.attr.size + 1) 0 ⟨ZFS_OK, { fh with reintegrating := true }, master, 0⟩
    ((s.adjustSize env).raiseVersion env).finish

end ZFS
