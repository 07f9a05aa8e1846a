import ZlomekFS.Spec.FileHandle

/-! `zfs_write` of `file.c` on a cached regular file. The bytes are written first, under the mutex
of the file descriptor alone; versions, size and trees follow after the locks were taken again,
so the two parts are two functions. -/

namespace ZFS
open Spans

/-- The loop of `zfs_write` that joins `[start, stop)` with the updated blocks it touches. -/
def joinBlocks (start stop : ℕ) : List Span → ℕ × ℕ
  | [] => (start, stop)
  | x :: blocks =>
    if x.stop < start then joinBlocks start stop blocks
    else if stop < x.start then (start, stop)
    else joinBlocks (min start x.start) (max stop x.stop) blocks

theorem joinBlocks_le (start stop : ℕ) (blocks : List Span) :
    (joinBlocks start stop blocks).1 ≤ start ∧ stop ≤ (joinBlocks start stop blocks).2 := by
  induction blocks generalizing start stop with
  | nil => simp [joinBlocks]
  | cons x blocks ih =>
    unfold joinBlocks
    split_ifs
    · exact ih start stop
    · simp
    · have h := ih (min start x.start) (max stop x.stop)
      omega

namespace InternalFh

def localWrite (fh : InternalFh) (offset : ℕ) (bytes : List UInt8) : InternalFh :=
  { fh with data := fh.data.write offset bytes }

/-- The range that `zfs_write` adds to both trees: from the end of the file or the first byte
written to the last one, joined with the updated parts of the blocks it touches. -/
def writtenRange (fh : InternalFh) (offset written : ℕ) : ℕ × ℕ :=
  joinBlocks (min offset fh.attr.size) (offset + written)
    (fh.updated.intersection (offset / ZFS_MODIFIED_BLOCK_SIZE * ZFS_MODIFIED_BLOCK_SIZE)
      ((offset + written + ZFS_MODIFIED_BLOCK_SIZE - 1) / ZFS_MODIFIED_BLOCK_SIZE *
        ZFS_MODIFIED_BLOCK_SIZE))

theorem writtenRange_bounds (fh : InternalFh) (offset written : ℕ) :
    (fh.writtenRange offset written).1 ≤ min offset fh.attr.size ∧
      offset + written ≤ (fh.writtenRange offset written).2 :=
  joinBlocks_le _ _ _

theorem writtenRange_le (fh : InternalFh) (offset written : ℕ) :
    (fh.writtenRange offset written).1 ≤ (fh.writtenRange offset written).2 := by
  have h := fh.writtenRange_bounds offset written
  omega

def recordWrite (fh : InternalFh) (offset written : ℕ) : InternalFh :=
  let fh := fh.incLocalVersionAndModified true
  let range := fh.writtenRange offset written
  let h := fh.writtenRange_le offset written
  let fh := { fh with attr.size := max fh.attr.size (offset + written) }
  (fh.appendInterval .updated range.1 range.2 h).appendInterval .modified range.1 range.2 h

def zfsWrite (fh : InternalFh) (offset : ℕ) (bytes : List UInt8) : InternalFh :=
  (fh.localWrite offset bytes).recordWrite offset bytes.length

@[simp] theorem recordWrite_versions (fh : InternalFh) (offset written : ℕ) :
    (fh.recordWrite offset written).metadata.localVersion = u64 (fh.metadata.localVersion + 1) ∧
      (fh.recordWrite offset written).attr.version = u64 (fh.metadata.localVersion + 1) :=
  ⟨rfl, rfl⟩

/-- What a successful `zfs_write` is to leave of the trees and the size. -/
structure WriteRecorded (offset written : ℕ) (fh fh' : InternalFh) : Prop where
  contained : ∀ i, offset ≤ i → i < offset + written → i ∈ fh'.updated ∧ i ∈ fh'.modified
  added : ∀ i, ¬ (offset ≤ i ∧ i < offset + written) →
    (i ∈ fh'.updated ∧ i ∉ fh.updated) ∨ (i ∈ fh'.modified ∧ i ∉ fh.modified) →
      i ∈ fh.updated ∨ fh.attr.size ≤ i ∧ i < offset
  updated : ∀ i ∈ fh.updated, i ∈ fh'.updated
  modified : ∀ i ∈ fh.modified, i ∈ fh'.modified
  size : fh'.attr.size = max fh.attr.size (offset + written)

/-! ## Changes of the size -/

/-- `zfs_setattr` marks what was added at the end of the file as updated. It does so for both trees. -/
def extendUpdated (fh : InternalFh) (size : ℕ) : InternalFh :=
  if h : fh.attr.size < size then fh.appendInterval .updated fh.attr.size size h.le else fh

def resizeTrees (fh : InternalFh) (size : ℕ) : InternalFh :=
  let fh := ({ fh with updated := fh.updated.deleteFrom size }.extendUpdated size).flushDeleted .updated
  ({ fh with modified := fh.modified.deleteFrom size }.extendUpdated size).flushDeleted .modified

def zfsSetattr (fh : InternalFh) (sa : Sattr) : InternalFh :=
  let fa := localSetattr fh sa
  let fh := { fh with data := setattrData fh.data sa }
  let fh := if sa.size.isSome then
      let fh := fh.incLocalVersion true
      if 0 < fh.users then fh.resizeTrees fa.size else fh
    else fh
  { fh with attr := fa }.setAttrVersion

def zfsGetattr (fh : InternalFh) : InternalFh := { fh with attr := localSetattr fh {} }.setAttrVersion

/-- `zfs_open` with `O_TRUNC` after the synchronisation. The size in the cached attributes stays. -/
def zfsOpenTrunc (fh : InternalFh) : InternalFh :=
  let fh := fh.loadIntervalTrees
  let fh := { fh with data := fh.data.truncate 0 }.incLocalVersion true
  let fh := { fh with updated := fh.updated.deleteFrom 0 }.flushDeleted .updated
  { fh with modified := fh.modified.deleteFrom 0 }.flushDeleted .modified

end InternalFh

end ZFS
