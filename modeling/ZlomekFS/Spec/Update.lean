import ZlomekFS.Spec.FileOps

/-! `update_file_blocks` of `update.c`: how the blocks to update are cut into the ranges whose md5
sums are compared. Up to `ZFS_MAX_MD5_CHUNKS` ranges go into one request. -/

namespace ZFS
open Spans

def ZFS_MAX_MD5_CHUNKS : ℕ := 256

structure Chunk where
  offset : ℕ
  length : ℕ
  deriving DecidableEq, Repr

def Chunk.Has (c : Chunk) (i : ℕ) : Prop := c.offset ≤ i ∧ i < c.offset + c.length

instance (c : Chunk) (i : ℕ) : Decidable (c.Has i) := inferInstanceAs (Decidable (_ ∧ _))

/-- `md5sum_args`: the arrays keep what earlier requests left in them, or what was on the stack. -/
structure Md5Args where
  count : ℕ
  offset : ℕ → ℕ
  length : ℕ → ℕ

def Md5Args.chunks (args : Md5Args) : List Chunk :=
  (List.range args.count).map fun i => ⟨args.offset i, args.length i⟩

def Md5Args.joins (args : Md5Args) (start : ℕ) : Bool :=
  0 < args.count &&
  sub64 start (args.offset (args.count - 1)) < ZFS_MAXDATA &&
  sub64 (sub64 start (args.offset (args.count - 1))) (args.length (args.count - 1)) <
    ZFS_MODIFIED_BLOCK_SIZE

/-- The loop of `update_file_blocks` while it cuts the blocks: the request being filled and the
requests already sent. -/
structure Chunking where
  args : Md5Args
  sent : List (List Chunk)

def Chunking.step (c : Chunking) (x : Span) : Chunking × Span :=
  let args := c.args
  if args.joins x.start then
    let start := args.offset (args.count - 1)
    let length := Function.update args.length (args.count - 1) (min (x.stop - start) ZFS_MAXDATA)
    -- the next offset is taken from the slot after the last one
    ({ c with args := { args with length := length } }, ⟨u64 (start + length args.count), x.stop⟩)
  else
    let (args, sent) := if args.count = ZFS_MAX_MD5_CHUNKS then
      ({ args with count := 0 }, c.sent ++ [args.chunks]) else (args, c.sent)
    let length := min (x.stop - x.start) ZFS_MAXDATA
    ({ args := { count := args.count + 1
                 offset := Function.update args.offset args.count x.start
                 length := Function.update args.length args.count length }
       sent := sent }, ⟨x.start + length, x.stop⟩)

def Chunking.block : ℕ → Chunking → Span → Chunking
  | 0, c, _ => c
  | fuel + 1, c, x =>
    let (c, x) := c.step x
    if x.start < x.stop then block fuel c x else c

/-- The requests that `update_file_blocks` sends for the blocks. The slots of the request start with
the values `junk`; a block takes at most one iteration for joining and one for every byte. -/
def chunkBatches (junk : ℕ → ℕ) (blocks : List Span) : List (List Chunk) :=
  let c := blocks.foldl (fun c x => Chunking.block (x.stop + 2) c x) ⟨⟨0, junk, junk⟩, []⟩
  if 0 < c.args.count then c.sent ++ [c.args.chunks] else c.sent

example : chunkBatches (fun _ => 0) [⟨0, 4⟩] = [[⟨0, 4⟩]] := by decide

/-- The inner loop, with `none` as long as it has not ended. -/
def Chunking.blockIn : ℕ → Chunking → Span → Option Chunking
  | 0, _, _ => none
  | fuel + 1, c, x =>
    let (c, x) := c.step x
    if x.start < x.stop then blockIn fuel c x else some c

/-- The requests of `chunkBatches`, with `none` if the loop for a block does not end. -/
def chunkRequests (junk : ℕ → ℕ) (blocks : List Span) : Option (List (List Chunk)) :=
  (blocks.foldlM (fun c x => Chunking.blockIn (x.stop + 2) c x) ⟨⟨0, junk, junk⟩, []⟩).map fun c =>
    if 0 < c.args.count then c.sent ++ [c.args.chunks] else c.sent

/-! ## The cursor into the blocks -/

def advance (blocks : List Span) (offset j : ℕ) : ℕ :=
  j + ((blocks.drop j).takeWhile (·.stop < offset)).length

def memcpy (buf2 buf : List UInt8) (start n : ℕ) : List UInt8 :=
  buf2.take start ++ (buf.drop start).take n ++ buf2.drop (start + n)

/-- The loop that copies the blocks to update into the buffer with the local data: it has the same
condition as the search for the first block. -/
def copyBlocks (blocks : List Span) (offset j : ℕ) (buf buf2 : List UInt8) : List UInt8 :=
  ((blocks.drop j).takeWhile (·.stop < offset)).foldl
    (fun b x => memcpy b buf (max x.start offset - offset)
      (min x.stop (offset + buf.length) - max x.start offset)) buf2

/-! ## Truncating the local file -/

namespace InternalFh

/-- The size `truncate_local_file` gives the file for the remote size `size`: local modifications
are not cut off. -/
def truncateTarget (fh : InternalFh) (size : ℕ) : ℕ := max size fh.modified.reach

/-- `truncate_local_file` after the file was truncated and has the size `faSize`. -/
def adoptSize (fh : InternalFh) (size faSize : ℕ) : InternalFh :=
  let flush := fh.attr.size < size && !fh.metadata.updatedTree
  let fh := { fh with
    attr.size := faSize
    updated := fh.updated.deleteFrom faSize
    modified := fh.modified.deleteFrom faSize }
  let fh := if h : size < faSize then fh.appendInterval .updated size faSize h.le else fh
  if flush || fh.updated.deleted then fh.flushIntervalTree .updated else fh

def truncateLocalFile (fh : InternalFh) (size : ℕ) : InternalFh :=
  if fh.truncateTarget size = fh.attr.size then fh
  else { fh with data := fh.data.truncate (fh.truncateTarget size) }.adoptSize size
    (fh.truncateTarget size)

def markSame (fh : InternalFh) (c : Chunk) : InternalFh :=
  if h : 0 < c.length then
    { fh with modified := fh.modified.delete c.offset (c.offset + c.length) (by omega) }.appendInterval
      .updated c.offset (c.offset + c.length) (by omega)
  else fh

@[simp] theorem adoptSize_data (fh : InternalFh) (size faSize : ℕ) : (fh.adoptSize size faSize).data = fh.data := by
  unfold adoptSize
  simp only
  split_ifs <;> rfl

@[simp] theorem adoptSize_metadata_versions (fh : InternalFh) (size faSize : ℕ) :
    (fh.adoptSize size faSize).metadata.localVersion = fh.metadata.localVersion ∧
      (fh.adoptSize size faSize).metadata.masterVersion = fh.metadata.masterVersion ∧
      (fh.adoptSize size faSize).attr.version = fh.attr.version := by
  unfold adoptSize
  simp only
  split_ifs <;> exact ⟨rfl, rfl, rfl⟩

theorem adoptSize_modified (fh : InternalFh) (size faSize : ℕ) :
    (fh.adoptSize size faSize).modified = fh.modified.deleteFrom faSize := by
  unfold adoptSize
  simp only
  split_ifs <;> rfl

@[simp] theorem adoptSize_users (fh : InternalFh) (size faSize : ℕ) :
    (fh.adoptSize size faSize).users = fh.users := by
  unfold adoptSize
  simp only
  split_ifs <;> rfl

@[simp] theorem markSame_data (fh : InternalFh) (c : Chunk) : (fh.markSame c).data = fh.data := by
  unfold markSame
  split_ifs <;> rfl

@[simp] theorem markSame_versions (fh : InternalFh) (c : Chunk) :
    (fh.markSame c).metadata.localVersion = fh.metadata.localVersion ∧
      (fh.markSame c).attr.version = fh.attr.version := by
  unfold markSame
  split_ifs <;> exact ⟨rfl, rfl⟩

theorem markSame_attr (fh : InternalFh) (c : Chunk) : (fh.markSame c).attr = fh.attr := by
  unfold markSame
  split_ifs <;> rfl

@[simp] theorem markSame_masterVersion (fh : InternalFh) (c : Chunk) :
    (fh.markSame c).metadata.masterVersion = fh.metadata.masterVersion := by
  unfold markSame
  split_ifs <;> rfl

end InternalFh

end ZFS
