import Mathlib.Data.UInt
import ZlomekFS.Lib.FlatFile
import ZlomekFS.Spec.IntervalTree

/-! The cached regular file as one record: the cached attributes, the metadata, the two interval
trees and the local data. The functions are those of `metadata.c` that change versions, flags and
trees; metadata I/O succeeds. While `users` is 0 the trees are not loaded and the two tree fields
stand for the interval files on the disk. -/

namespace ZFS
open Spans

def ZFS_MAXDATA : ℕ := 8192
def ZFS_UPDATED_BLOCK_SIZE : ℕ := ZFS_MAXDATA
def ZFS_MODIFIED_BLOCK_SIZE : ℕ := 1024

def ZFS_OK : ℤ := 0
def ZFS_STALE : ℤ := -20
def ZFS_BUSY : ℤ := -21
def ZFS_CHANGED : ℤ := -22
def ZFS_SLOW_BUSY : ℤ := -23
def ZFS_METADATA_ERROR : ℤ := -50
def ZFS_UPDATE_FAILED : ℤ := -51

def u32 (n : ℕ) : ℕ := n % 2 ^ 32

def sub32 (a b : ℕ) : ℕ := u32 (a + (2 ^ 32 - b))

theorem u32_of_lt {n : ℕ} (h : n < 2 ^ 32) : u32 n = n := Nat.mod_eq_of_lt h

theorem sub32_of_le {a b : ℕ} (h : b ≤ a) (ha : a < 2 ^ 32) : sub32 a b = a - b := by
  unfold sub32 u32
  omega

def u64 (n : ℕ) : ℕ := n % 2 ^ 64

def sub64 (a b : ℕ) : ℕ := u64 (a + (2 ^ 64 - b))

theorem u64_lt (n : ℕ) : u64 n < 2 ^ 64 := Nat.mod_lt n (by decide)

theorem u64_add_u64 (a b : ℕ) : u64 (u64 a + b) = u64 (a + b) := Nat.mod_add_mod a _ b

theorem u64_of_lt {n : ℕ} (h : n < 2 ^ 64) : u64 n = n := Nat.mod_eq_of_lt h

theorem sub64_of_le {a b : ℕ} (h : b ≤ a) (ha : a < 2 ^ 64) : sub64 a b = a - b := by
  unfold sub64 u64
  omega

theorem sub64_of_lt {a b : ℕ} (h : a < b) (hb : b < 2 ^ 64) : sub64 a b = 2 ^ 64 - (b - a) := by
  unfold sub64 u64
  omega

inductive FType
  | bad | reg | dir | lnk | blk | chr | sock | fifo
  deriving DecidableEq, Repr

structure ZfsFh where
  (sid vid dev ino gen : UInt32)
  deriving DecidableEq, Repr

/-- `zfs_fh_undefine` fills the handle with ones. -/
def undefinedFh : ZfsFh := ⟨0xffffffff, 0xffffffff, 0xffffffff, 0xffffffff, 0xffffffff⟩

structure Fattr where
  type : FType
  mode : ℕ
  uid : ℕ
  gid : ℕ
  size : ℕ
  version : ℕ
  deriving DecidableEq, Repr

/-- The flags are `METADATA_COMPLETE`, `METADATA_UPDATED_TREE` and `METADATA_MODIFIED_TREE`;
`mode` is `GET_MODETYPE_MODE (modetype)`. -/
structure Metadata where
  complete : Bool
  updatedTree : Bool
  modifiedTree : Bool
  localVersion : ℕ
  masterVersion : ℕ
  mode : ℕ
  uid : ℕ
  gid : ℕ
  deriving DecidableEq, Repr

structure InternalFh where
  attr : Fattr
  metadata : Metadata
  updated : IntervalTree
  modified : IntervalTree
  users : ℕ
  reintegrating : Bool
  data : FlatFile UInt8

inductive TreeType
  | updated | modified
  deriving DecidableEq, Repr

namespace InternalFh

def setAttrVersion (fh : InternalFh) : InternalFh :=
  { fh with attr.version := fh.metadata.localVersion }

def incLocalVersion (isCopy : Bool) (fh : InternalFh) : InternalFh :=
  let version := u64 (fh.metadata.localVersion + 1)
  { fh with
    metadata.localVersion := version
    metadata.masterVersion := if isCopy then fh.metadata.masterVersion else version }.setAttrVersion

def incLocalVersionAndModified (isCopy : Bool) (fh : InternalFh) : InternalFh :=
  { fh.incLocalVersion isCopy with metadata.modifiedTree := true }

def tree (fh : InternalFh) : TreeType → IntervalTree
  | .updated => fh.updated
  | .modified => fh.modified

def setTree (fh : InternalFh) (tree : IntervalTree) : TreeType → InternalFh
  | .updated => { fh with updated := tree }
  | .modified => { fh with modified := tree }

/-- Whether the interval file of a tree says no more than its absence does. -/
def uselessIntervalFile (fh : InternalFh) : TreeType → Bool
  | .updated => fh.updated.nodes = [⟨0, fh.attr.size⟩]
  | .modified => fh.modified.nodes = []

def deleteUselessIntervalFile (fh : InternalFh) (type : TreeType) : InternalFh :=
  match type with
  | .updated => { fh with metadata.updatedTree := !fh.uselessIntervalFile .updated }
  | .modified => { fh with metadata.modifiedTree := !fh.uselessIntervalFile .modified }

def flushIntervalTree (fh : InternalFh) (type : TreeType) : InternalFh :=
  (fh.setTree { fh.tree type with deleted := false } type).deleteUselessIntervalFile type

/-- `if (tree->deleted) flush_interval_tree`, by which the callers write a changed tree back. -/
def flushDeleted (fh : InternalFh) (type : TreeType) : InternalFh :=
  if (fh.tree type).deleted then fh.flushIntervalTree type else fh

def appendInterval (fh : InternalFh) (type : TreeType) (start stop : ℕ) (h : start ≤ stop) : InternalFh :=
  (fh.setTree ((fh.tree type).insert start stop h) type).deleteUselessIntervalFile type

def initIntervalTree (fh : InternalFh) (type : TreeType) : InternalFh :=
  match type with
  | .updated =>
    if fh.metadata.updatedTree then
      (fh.setTree ((IntervalTree.create.add fh.updated).deleteFrom fh.attr.size) .updated).flushIntervalTree
        .updated
    else fh.setTree (IntervalTree.create.insert 0 fh.attr.size (Nat.zero_le _)) .updated
  | .modified =>
    if fh.metadata.modifiedTree then
      (fh.setTree ((IntervalTree.create.add fh.modified).deleteFrom fh.attr.size) .modified).flushIntervalTree
        .modified
    else fh.setTree IntervalTree.create .modified

def loadIntervalTrees (fh : InternalFh) : InternalFh :=
  let fh := { fh with users := fh.users + 1 }
  if 1 < fh.users then fh else (fh.initIntervalTree .updated).initIntervalTree .modified

def saveIntervalTrees (fh : InternalFh) : InternalFh :=
  let fh := { fh with users := fh.users - 1 }
  if 0 < fh.users then fh else (fh.flushIntervalTree .updated).flushIntervalTree .modified

/-- A complete cached file in sync with its master copy at version 1, opened once. -/
def synced (bytes : List UInt8) : InternalFh where
  attr := ⟨.reg, 420, 0, 0, bytes.length, 1⟩
  metadata := ⟨true, false, false, 1, 1, 420, 0, 0⟩
  updated := IntervalTree.create.insert 0 bytes.length (Nat.zero_le _)
  modified := IntervalTree.create
  users := 1
  reintegrating := false
  data := FlatFile.ofList bytes

def getBlocksForUpdating (fh : InternalFh) (start stop : ℕ) : List Span :=
  fh.modified.complementVarray (fh.updated.complement start stop)

end InternalFh

/-! ## Setting attributes of the local file -/

/-- `sattr`: `none` stands for the value -1 that leaves an attribute alone. -/
structure Sattr where
  mode : Option ℕ := none
  uid : Option ℕ := none
  gid : Option ℕ := none
  size : Option ℕ := none
  deriving DecidableEq, Repr

def getMode (mode : ℕ) : ℕ := mode % 4096

def setattrData (data : FlatFile UInt8) (sa : Sattr) : FlatFile UInt8 :=
  match sa.size with
  | some size => data.truncate size
  | none => data

/-- The attributes a successful `local_setattr` returns. They come from `fattr_from_struct_stat`,
which knows no version and stores 0. -/
def localSetattr (fh : InternalFh) (sa : Sattr) : Fattr :=
  { type := fh.attr.type
    mode := (sa.mode.map getMode).getD fh.attr.mode
    uid := sa.uid.getD fh.attr.uid
    gid := sa.gid.getD fh.attr.gid
    size := (setattrData fh.data sa).size
    version := 0 }

/-! ## The tests of `update.h` on the attributes -/

def metadataSizeChange (attr1 attr2 : Fattr) : Bool :=
  attr1.type = .reg && attr1.size != attr2.size

def metadataAttrChange (metadata : Metadata) (attr : Fattr) : Bool :=
  attr.mode != metadata.mode || attr.uid != metadata.uid || attr.gid != metadata.gid

def metadataAttrEq (attr1 attr2 : Fattr) : Bool :=
  attr1.mode = attr2.mode && attr1.uid = attr2.uid && attr1.gid = attr2.gid &&
    !metadataSizeChange attr1 attr2

def metadataChange (fh : InternalFh) (attr : Fattr) : Bool :=
  metadataAttrChange fh.metadata fh.attr || metadataAttrChange fh.metadata attr ||
    metadataSizeChange fh.attr attr || (attr.type = .reg && fh.metadata.masterVersion != attr.version)

def updateP (fh : InternalFh) (attr : Fattr) : Bool :=
  !fh.metadata.complete ||
    if fh.attr.type = .dir then fh.metadata.masterVersion < attr.version
    else fh.attr.version = fh.metadata.masterVersion && fh.metadata.masterVersion < attr.version

def reintegrateP (fh : InternalFh) (attr : Fattr) : Bool :=
  if fh.attr.type = .dir then fh.metadata.masterVersion < fh.attr.version
  else attr.version = fh.metadata.masterVersion && fh.metadata.masterVersion < fh.attr.version

end ZFS
