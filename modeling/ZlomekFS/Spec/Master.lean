import ZlomekFS.Spec.FileHandle

/-! The file at its master, and how the master carries out the requests of a node. Its volume is no
copy, so one version number stands for both versions in its metadata; it keeps no interval trees. -/

namespace ZFS

structure Master where
  mode : ℕ
  uid : ℕ
  gid : ℕ
  version : ℕ
  data : FlatFile UInt8

namespace Master

def getattr (m : Master) : Fattr := ⟨.reg, m.mode, m.uid, m.gid, m.data.size, m.version⟩

def write (m : Master) (offset : ℕ) (bytes : List UInt8) : Master :=
  { m with data := m.data.write offset bytes, version := u64 (m.version + 1) }

def setattr (m : Master) (sa : Sattr) : Master where
  mode := (sa.mode.map getMode).getD m.mode
  uid := sa.uid.getD m.uid
  gid := sa.gid.getD m.gid
  version := if sa.size.isSome then u64 (m.version + 1) else m.version
  data := setattrData m.data sa

def reintegrateVer (m : Master) (versionInc : ℕ) : Master :=
  { m with version := u64 (m.version + versionInc) }

def synced (bytes : List UInt8) : Master := ⟨420, 0, 0, 1, FlatFile.ofList bytes⟩

end Master

abbrev Err := { r : ℤ // r ≠ ZFS_OK }

/-- Outcome of a request: answered, or failed with or without having been carried out. -/
inductive CallAns
  | ok
  | fails (performed : Bool) (r : Err)

/-- Outcome of one `remote_write` of a nonempty buffer: the master writes at least one byte unless it
fails. -/
inductive WriteAns
  /-- Acknowledged with `n + 1` bytes, or all if there are fewer. -/
  | ok (n : ℕ)
  | fails (r : Err)
  /-- The master wrote `n + 1` bytes, the answer was lost. -/
  | lost (n : ℕ) (r : Err)

end ZFS
