import ZlomekFS.Lib.Runs
import ZlomekFS.Spec.Reintegrate
import ZlomekFS.Spec.Synchronize

/-! A cached regular file and its copy at the master, which no other node changes: the operations of
the local node one after the other. The master may be out of reach at any time, then nothing
is synchronised; if it is reached it answers. -/

namespace ZFS

structure Replica where
  fh : InternalFh
  master : Master
  masterFh : ZfsFh
  place : Place

inductive ReplicaOp
  | write (offset : ℕ) (bytes : List UInt8)
  | setattr (size : ℕ)
  | openTrunc
  | openFile
  | closeFile
  | getattr
  /-- `update_fh_if_needed (IFH_METADATA)`, by which most calls start. -/
  | sync
  | reintegrate (env : ReintEnv)

namespace Replica

/-- Whether `synchronize_file` sends the local attributes to the master. -/
def pushes (s : Replica) : Bool :=
  localChanged s.fh s.master.getattr && !remoteChanged s.fh s.master.getattr &&
    !metadataAttrEq s.fh.attr s.master.getattr

def pushed (s : Replica) : Master :=
  if s.pushes then s.master.setattr
    { mode := s.fh.attr.mode, uid := s.fh.attr.uid, gid := s.fh.attr.gid
      size := if s.fh.attr.type = .reg then some s.fh.attr.size else none }
  else s.master

def synchronize (s : Replica) : Replica :=
  let env : SyncEnv := ⟨(ZFS_OK, s.pushed.getattr), ZFS_OK, true, (ZFS_OK, s.masterFh, s.pushed.getattr)⟩
  let res := synchronizeFile env s.masterFh s.fh s.master.getattr s.place false false
  { s with fh := res.fh, master := s.pushed, place := res.place }

def sync (s : Replica) : Replica :=
  if metadataChange s.fh s.master.getattr then s.synchronize else s

def step (s : Replica) : ReplicaOp → Option Replica
  | .write offset bytes => if 0 < s.fh.users then some { s with fh := s.fh.zfsWrite offset bytes } else none
  | .setattr size => some { s with fh := s.fh.zfsSetattr { size := some size } }
  | .openTrunc => some { s with fh := s.fh.zfsOpenTrunc }
  | .openFile => some { s with fh := s.fh.loadIntervalTrees }
  | .closeFile => if 0 < s.fh.users then some { s with fh := s.fh.saveIntervalTrees } else none
  | .getattr => some { s with fh := s.fh.zfsGetattr }
  | .sync => some s.sync
  | .reintegrate env =>
    if 0 < s.fh.users then
      let r := reintegrateFileBlocks env s.fh s.master
      some { s with fh := r.fh, master := r.master }
    else none

end Replica

end ZFS
