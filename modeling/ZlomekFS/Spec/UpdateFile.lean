import ZlomekFS.Spec.Master
import ZlomekFS.Spec.Synchronize
import ZlomekFS.Spec.Update

/-! `update_file_blocks` of `update.c` and `zfs_read` of `file.c` without interruption. Local I/O
succeeds; what the master answers is an argument. The md5 sum is any function of the bytes. -/

namespace ZFS
open Spans

/-- `md5sum_res` of the master: the ranges that exist there, with their sums. -/
structure Md5Res (α : Type) where
  size : ℕ
  version : ℕ
  ranges : List (Chunk × α)

inductive ReadAns
  | ok (bytes : List UInt8)
  | changed (version : ℕ)
  | fails (r : Err)

structure UpdEnv (α : Type) where
  md5sum : List Chunk → Except Err (Md5Res α)
  read : Chunk → ReadAns
  busy : Chunk → Bool

structure Upd where
  code : ℤ
  fh : InternalFh
  j : ℕ

/-- The data that `update_file_blocks_1` writes for a range of which the master sent `buf`: the whole
buffer where the range is inside of a block, else the local data with the blocks copied over. -/
def mergeRange (blocks : List Span) (data : FlatFile UInt8) (offset j : ℕ) (buf : List UInt8) : List UInt8 :=
  let buf2 := data.read offset buf.length
  let merged := copyBlocks blocks offset j buf (buf2 ++ buf.drop buf2.length)
  match blocks[j]? with
  | some x => if x.start ≤ offset ∧ offset + buf.length ≤ x.stop then buf else merged
  -- not reached: a range starts before the end of the block it was cut from
  | none => merged

section
variable {α : Type} [DecidableEq α] (md5 : List UInt8 → α) (env : UpdEnv α) (slow : Bool) (blocks : List Span)

/-- `local_md5sum`: ranges past the end of the file are left out. -/
def localMd5sum (data : FlatFile UInt8) (args : List Chunk) : List (Chunk × α) :=
  (args.map fun c => (⟨c.offset, (data.read c.offset c.length).length⟩, md5 (data.read c.offset c.length))).filter
    (0 < ·.1.length)

def sameRange (l : Option (Chunk × α)) (r : Chunk × α) : Bool :=
  l.any fun l => l.1.length = r.1.length && l.2 = r.2

/-- The loop over the local sums: equal ranges leave `modified` and join `updated`. -/
def markRanges : List (Chunk × α) → List (Chunk × α) → InternalFh → ℤ × InternalFh
  | [], _, fh => (ZFS_OK, fh)
  | _ :: _, [], fh => (ZFS_UPDATE_FAILED, fh)
  | l :: locals, r :: ranges, fh =>
    if l.1.offset ≠ r.1.offset then (ZFS_UPDATE_FAILED, fh)
    else markRanges locals ranges (if sameRange (some l) r then fh.markSame l.1 else fh)

def fetchRange (s : Upd) (c : Chunk) : Upd :=
  let j := advance blocks c.offset s.j
  if slow ∧ env.busy c then ⟨ZFS_SLOW_BUSY, s.fh, j⟩
  else
    match env.read c with
    | .changed version => ⟨ZFS_CHANGED, s.fh.updateFileClearUpdatedTree1 version, j⟩
    | .fails r => ⟨r, s.fh, j⟩
    | .ok bytes =>
      let buf := bytes.take c.length
      ⟨ZFS_OK, (s.fh.localWrite c.offset (mergeRange blocks s.fh.data c.offset j buf)).appendInterval .updated
        c.offset (c.offset + buf.length) (Nat.le_add_right _ _), j⟩

def fetchRanges (size : ℕ) : List (Chunk × α) → List (Chunk × α) → Upd → Upd
  | [], _, s => s
  | r :: ranges, locals, s =>
    if ZFS_MAXDATA < r.1.length ∨ size < r.1.offset + r.1.length then { s with code := ZFS_UPDATE_FAILED }
    else
      let s := if sameRange locals.head? r then s else fetchRange env slow blocks s r.1
      if s.code = ZFS_OK then fetchRanges size ranges locals.tail s else s

def compareSums (fh : InternalFh) (j : ℕ) (locals : List (Chunk × α)) (reply : Md5Res α) : Upd :=
  let localSize := fh.attr.size
  let fh := if fh.attr.version = fh.metadata.masterVersion ∧ fh.metadata.masterVersion ≠ reply.version then
      fh.updateFileClearUpdatedTree1 reply.version
    else fh
  let resized := localSize ≠ reply.size
  let fh := if resized then fh.truncateLocalFile reply.size else fh
  let locals := if resized then locals.take reply.ranges.length else locals
  let (r, fh) := markRanges locals reply.ranges fh
  if r = ZFS_OK then
    let s := fetchRanges env slow blocks reply.size reply.ranges locals ⟨ZFS_OK, fh, j⟩
    if s.code = ZFS_OK then { s with fh := s.fh.flushDeleted .modified } else s
  else ⟨r, fh, j⟩

def updateFileBlocks1 (args : List Chunk) (s : Upd) : Upd :=
  match env.md5sum args with
  | .error r => { s with code := r }
  | .ok reply =>
    -- none of the ranges exists at the master
    if reply.ranges = [] then { s with code := ZFS_OK }
    else compareSums env slow blocks s.fh s.j (localMd5sum md5 s.fh.data args) reply

def updateBatches : List (List Chunk) → Upd → Upd
  | [], s => s
  | args :: rest, s =>
    let s := updateFileBlocks1 md5 env slow blocks args s
    if s.code = ZFS_CHANGED then { s with code := ZFS_OK }
    else if s.code = ZFS_OK then updateBatches rest s
    else s

/-- `update_file_blocks`; `junk` is what the arrays of the request hold at the start. -/
def updateFileBlocks (junk : ℕ → ℕ) (fh : InternalFh) : Upd :=
  updateBatches md5 env slow blocks (chunkBatches junk blocks) ⟨ZFS_OK, fh, 0⟩

def updateMissing (junk : ℕ → ℕ) (fh : InternalFh) (size : ℕ) : Upd :=
  let blocks := fh.getBlocksForUpdating 0 size
  if blocks = [] then ⟨ZFS_OK, fh, 0⟩ else updateFileBlocks md5 env slow blocks junk fh

/-- The part of `update_file` for `IFH_UPDATE` with the size of the remote file, after the trees were
loaded. -/
def updatePart (junk : ℕ → ℕ) (fh : InternalFh) (size : ℕ) : ℤ × InternalFh :=
  let u := updateMissing md5 env slow junk (fh.truncateLocalFile size) size
  (u.code, if u.fh.updated.covered 0 size then { u.fh with metadata.complete := true } else u.fh)

end

/-! ## Reading -/

/-- The loop of `zfs_read` that looks for a block to update in `[offset, offset2)`. -/
def readComplete (offset offset2 : ℕ) : List Span → Bool
  | [] => true
  | b :: blocks =>
    if offset2 ≤ b.start then true
    else if b.start ≤ offset ∧ offset < b.stop then false
    else if b.start < offset2 ∧ offset2 ≤ b.stop then false
    else readComplete offset offset2 blocks

/-- The blocks that `zfs_read` asks for: at least as many bytes as a block has. -/
def InternalFh.readBlocks (fh : InternalFh) (offset count : ℕ) : List Span :=
  let count2 := if count < ZFS_UPDATED_BLOCK_SIZE then ZFS_UPDATED_BLOCK_SIZE else count
  fh.getBlocksForUpdating offset (if offset < 2 ^ 64 - 1 - count2 then offset + count2 else 2 ^ 64 - 1)

structure ReadRes where
  code : ℤ
  bytes : List UInt8
  fh : InternalFh

/-- The result of `lseek`, which `local_read` keeps in an `int32_t`, is taken not to be negative. -/
def localRead (fh : InternalFh) (offset count : ℕ) : ReadRes := ⟨ZFS_OK, fh.data.read offset count, fh⟩

def EINVAL : ℤ := 22

/-- `zfs_read` with `update_local` of a regular file that is opened and has a master; `opened` is what
`cond_remote_open` returns, `none` for success. -/
def zfsRead {α : Type} [DecidableEq α] (md5 : List UInt8 → α) (env : UpdEnv α) (opened : Option Err)
    (junk : ℕ → ℕ) (fh : InternalFh) (offset count : ℕ) : ReadRes :=
  let blocks := fh.readBlocks offset count
  if ZFS_MAXDATA < count then ⟨EINVAL, [], fh⟩
  else if readComplete offset (u64 (offset + count)) blocks then localRead fh offset count
  else
    match opened with
    -- the jump to `out_update`
    | some _ => localRead fh offset count
    | none =>
      let s := updateFileBlocks md5 env false blocks junk fh
      if s.code = ZFS_OK then localRead s.fh offset count else ⟨s.code, [], s.fh⟩

end ZFS
