import ZlomekFS.Lib.Runs
import ZlomekFS.Spec.Synchronize
import ZlomekFS.Spec.Update

/-! One run of `update_file_blocks` and any number of `zfs_write` calls on one file, in steps. A step
is what happens between two points where the locks are dropped. The updater compares the version
of the file under the locks and takes the mutex of the file descriptor before it releases them,
so the comparison and the write of a piece are one step for every other writer. The answers of
the master, and what `local_md5sum` found while the file was written, are part of the events. -/

namespace ZFS
open Spans

/-- Answer to an md5 request: for each range the number of bytes that exist at the master. -/
structure Md5Reply where
  size : ℕ
  version : ℕ
  lengths : List ℕ
  deriving DecidableEq, Repr

def Md5Reply.entries (reply : Md5Reply) (args : List Chunk) : List Chunk :=
  ((args.zip reply.lengths).map fun c => ⟨c.1.offset, min c.2 c.1.length⟩).filter (0 < ·.length)

structure UpdCtx where
  blocks : List Span
  rest : List (List Chunk)
  j : ℕ
  deriving DecidableEq, Repr

/-- Where the updater is; `same` tells which ranges had equal sums, `lv` is the version of the local
file that was noted for the writes. -/
inductive UpdPc
  | start
  | request (c : UpdCtx)
  | localSums (c : UpdCtx) (reply : Md5Reply) (entries : List Chunk)
  | versions (c : UpdCtx) (reply : Md5Reply) (entries : List Chunk) (localSize : ℕ) (same : List Bool)
  | clear (c : UpdCtx) (reply : Md5Reply) (entries : List Chunk) (localSize : ℕ) (same : List Bool)
  | resize (c : UpdCtx) (reply : Md5Reply) (entries : List Chunk) (localSize : ℕ) (same : List Bool)
  | truncate (c : UpdCtx) (reply : Md5Reply) (entries : List Chunk) (same : List Bool) (target : ℕ)
  | stat (c : UpdCtx) (reply : Md5Reply) (entries : List Chunk) (same : List Bool)
  | adopt (c : UpdCtx) (reply : Md5Reply) (entries : List Chunk) (same : List Bool) (faSize : ℕ)
  | capture (c : UpdCtx) (entries : List Chunk) (same : List Bool)
  | entries (c : UpdCtx) (lv : ℕ) (todo : List (Chunk × Bool))
  /-- In `full_local_read`; `buf` came from the master, `buf2` from the local file. -/
  | readBack (c : UpdCtx) (lv off : ℕ) (buf buf2 : List UInt8) (todo : List (Chunk × Bool))
  | write (c : UpdCtx) (lv off : ℕ) (buf : List UInt8) (total : ℕ) (todo : List (Chunk × Bool))
  | append (c : UpdCtx) (lv off count : ℕ) (todo : List (Chunk × Bool))
  | done

structure UpdState where
  fh : InternalFh
  /-- Offset and length of the writes whose bytes are written and not yet recorded. -/
  pending : List (ℕ × ℕ)
  pc : UpdPc
  /-- Ghost: the value that the last `zfs_write` gave a byte. -/
  expect : ℕ → Option UInt8
  /-- Ghost: the largest size that the master reported for a request. -/
  seen : ℕ

inductive UpdEvent
  | writeBytes (offset : ℕ) (bytes : List UInt8)
  | recordWrite (i : ℕ)
  | getBlocks (start stop : ℕ) (junk : ℕ → ℕ)
  | remoteMd5 (reply : Md5Reply)
  | localMd5 (localSize : ℕ) (same : List Bool)
  | versions
  | clear
  | resize
  | truncate
  | stat
  | adopt
  | capture
  | skip
  | fetch (bytes : List UInt8)
  | readBack (n : ℕ)
  | write (n : ℕ)
  | append
  /-- The function returns early: an error, or a changed or busy remote file. -/
  | abort (clear : Option ℕ)

namespace UpdState

def Pending (s : UpdState) (i : ℕ) : Prop := ∃ w ∈ s.pending, w.1 ≤ i ∧ i < w.1 + w.2

def writeBytes (s : UpdState) (offset : ℕ) (bytes : List UInt8) : UpdState :=
  { s with
    fh := s.fh.localWrite offset bytes
    pending := s.pending ++ [(offset, bytes.length)]
    expect := fun i => if offset ≤ i then (bytes[i - offset]?).or (s.expect i) else s.expect i }

/-- `full_local_read` is through: the local data are completed by the remote ones and written. -/
def finishReadBack (c : UpdCtx) (lv off : ℕ) (buf buf2 : List UInt8) (todo : List (Chunk × Bool)) : UpdPc :=
  .write c lv off (copyBlocks c.blocks off c.j buf (buf2 ++ buf.drop buf2.length)) 0 todo

def step (s : UpdState) : UpdEvent → Option UpdState
  | .writeBytes offset bytes => some (s.writeBytes offset bytes)
  | .recordWrite i =>
    (s.pending[i]?).map fun w =>
      { s with fh := s.fh.recordWrite w.1 w.2, pending := s.pending.eraseIdx i }
  | .getBlocks start stop junk =>
    match s.pc with
    | .start =>
      let blocks := s.fh.getBlocksForUpdating start stop
      some { s with pc := .request ⟨blocks, chunkBatches junk blocks, 0⟩ }
    | _ => none
  | .remoteMd5 reply =>
    match s.pc with
    | .request c =>
      match c.rest with
      | [] => some { s with pc := .done }
      | args :: rest =>
        let entries := reply.entries args
        if ∀ e ∈ entries, e.offset + e.length ≤ reply.size then
          let c := { c with rest := rest }
          some { s with
            seen := max s.seen reply.size
            pc := if entries = [] then .request c else .localSums c reply entries }
        else none
    | _ => none
  | .localMd5 localSize same =>
    match s.pc with
    | .localSums c reply entries => some { s with pc := .versions c reply entries localSize same }
    | _ => none
  | .versions =>
    match s.pc with
    | .versions c reply entries localSize same =>
      if s.fh.attr.version = s.fh.metadata.masterVersion ∧
          s.fh.metadata.masterVersion ≠ reply.version then
        some { s with pc := .clear c reply entries localSize same }
      else some { s with pc := .resize c reply entries localSize same }
    | _ => none
  | .clear =>
    match s.pc with
    | .clear c reply entries localSize same =>
      some { s with fh := s.fh.updateFileClearUpdatedTree1 reply.version
                    pc := .resize c reply entries localSize same }
    | _ => none
  | .resize =>
    match s.pc with
    | .resize c reply entries localSize same =>
      if localSize ≠ reply.size ∧ s.fh.truncateTarget reply.size ≠ s.fh.attr.size then
        some { s with pc := .truncate c reply entries same (s.fh.truncateTarget reply.size) }
      else some { s with pc := .capture c entries same }
    | _ => none
  | .truncate =>
    match s.pc with
    | .truncate c reply entries same target =>
      some { s with fh := { s.fh with data := s.fh.data.truncate target }
                    pc := .stat c reply entries same }
    | _ => none
  | .stat =>
    match s.pc with
    | .stat c reply entries same => some { s with pc := .adopt c reply entries same s.fh.data.size }
    | _ => none
  | .adopt =>
    match s.pc with
    | .adopt c reply entries same faSize =>
      some { s with fh := s.fh.adoptSize reply.size faSize, pc := .capture c entries same }
    | _ => none
  | .capture =>
    match s.pc with
    | .capture c entries same =>
      let todo := entries.zip (same ++ List.replicate entries.length false)
      let fh := ((todo.filter (·.2)).map (·.1)).foldl InternalFh.markSame s.fh
      some { s with fh := fh, pc := .entries c fh.attr.version todo }
    | _ => none
  | .skip =>
    match s.pc with
    | .entries c _ [] => some { s with pc := .request c }
    | .entries c lv ((_, true) :: todo) => some { s with pc := .entries c lv todo }
    | _ => none
  | .fetch bytes =>
    match s.pc with
    | .entries c lv ((e, false) :: todo) =>
      if bytes.length ≤ e.length then
        let c := { c with j := advance c.blocks e.offset c.j }
        match c.blocks[c.j]? with
        | some x =>
          if x.start ≤ e.offset ∧ e.offset + bytes.length ≤ x.stop then
            some { s with pc := .write c lv e.offset bytes 0 todo }
          else some { s with pc := .readBack c lv e.offset bytes [] todo }
        -- not reached: a range starts before the end of the block it was cut from
        | none => some { s with pc := .readBack c lv e.offset bytes [] todo }
      else none
    | _ => none
  | .readBack n =>
    match s.pc with
    | .readBack c lv off buf buf2 todo =>
      if buf2.length < buf.length then
        if s.fh.attr.version ≠ lv then some { s with pc := .done }
        else if 0 < n ∧ n ≤ buf.length - buf2.length then
          let next := s.fh.data.read (off + buf2.length) n
          -- nothing is read only at the end of the file
          if next = [] then some { s with pc := finishReadBack c lv off buf buf2 todo }
          else some { s with pc := .readBack c lv off buf (buf2 ++ next) todo }
        else none
      else some { s with pc := finishReadBack c lv off buf buf2 todo }
    | _ => none
  | .write n =>
    match s.pc with
    | .write c lv off buf total todo =>
      if total < buf.length then
        if s.fh.attr.version ≠ lv then some { s with pc := .done }
        else if n ≤ buf.length - total then
          if n = 0 then some { s with pc := .append c lv off total todo }
          else some { s with
            fh := s.fh.localWrite (off + total) ((buf.drop total).take n)
            pc := .write c lv off buf (total + n) todo }
        else none
      else some { s with pc := .append c lv off total todo }
    | _ => none
  | .append =>
    match s.pc with
    | .append c lv off count todo =>
      some { s with fh := s.fh.appendInterval .updated off (off + count) (by omega)
                    pc := .entries c lv todo }
    | _ => none
  | .abort clear =>
    match s.pc with
    | .start | .done => none
    | _ => some { s with
        fh := match clear with
          | some version => s.fh.updateFileClearUpdatedTree1 version
          | none => s.fh
        pc := .done }

end UpdState

end ZFS
