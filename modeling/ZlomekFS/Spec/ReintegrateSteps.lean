import ZlomekFS.Lib.Runs
import ZlomekFS.Spec.Reintegrate

/-! `reintegrate_file_blocks` and any number of `zfs_write` calls on one file, in steps. The locks
are dropped around every local read and every remote write, so a step is what happens between
two points where another thread may run: one read, one acknowledged write, or the removal of an
interval together with the search for the next one. A writer writes its bytes under the mutex of
the file descriptor alone, hence at any time, and records the write later under the locks. -/

namespace ZFS

/-- A byte in the buffer of the reintegration. `wasModified` is a ghost: whether its offset was in
the `modified` tree when the byte was read. -/
structure Sample where
  byte : UInt8
  wasModified : Bool
  deriving DecidableEq, Repr

inductive ReintPc
  | lookup (offset : ℕ)
  | read (offset count : ℕ) (buf : List Sample)
  | send (offset : ℕ) (buf : List Sample) (total : ℕ)
  | done
  deriving DecidableEq, Repr

structure ReintState where
  fh : InternalFh
  master : FlatFile UInt8
  /-- Offset and length of the writes whose bytes are written and not yet recorded. -/
  pending : List (ℕ × ℕ)
  pc : ReintPc

inductive ReintEvent
  | writeBytes (offset : ℕ) (bytes : List UInt8)
  | recordWrite (i : ℕ)
  | lookup
  | read (n : ℕ)
  | send (n : ℕ)
  /-- A `remote_write` that fails after the master stored `n` bytes. -/
  | sendFails (n : ℕ)
  | giveUp
  | remove
  | resize
  | restart
  deriving DecidableEq, Repr

namespace ReintState

def storeNext (s : ReintState) (offset total n : ℕ) (buf : List Sample) : FlatFile UInt8 :=
  s.master.write (offset + total) (((buf.drop total).take n).map Sample.byte)

/-- The bytes that the local read at the end of `buf` returns when it asks for `n`. -/
def sampleNext (s : ReintState) (offset n : ℕ) (buf : List Sample) : List Sample :=
  (s.fh.data.read (offset + buf.length) n).mapIdx fun j b =>
    ⟨b, offset + buf.length + j ∈ s.fh.modified⟩

def afterRead (offset count : ℕ) (buf : List Sample) : ReintPc :=
  if buf.length < count then .read offset count buf else .send offset buf 0

def step (s : ReintState) : ReintEvent → Option ReintState
  | .writeBytes offset bytes =>
    some { s with fh := s.fh.localWrite offset bytes, pending := s.pending ++ [(offset, bytes.length)] }
  | .recordWrite i =>
    match s.pc, s.pending[i]? with
    | .lookup _, _ => none
    | _, none => none
    | _, some (offset, written) =>
      some { s with fh := s.fh.recordWrite offset written, pending := s.pending.eraseIdx i }
  | .lookup =>
    match s.pc with
    | .lookup offset =>
      if offset < s.fh.attr.size then
        match reintegrateRange s.fh.modified offset with
        | some (offset, count) => some { s with pc := if count = 0 then .done else .read offset count [] }
        | none => some { s with pc := .done }
      else some { s with pc := .done }
    | _ => none
  | .read n =>
    match s.pc with
    | .read offset count buf =>
      if n ≤ count - buf.length then
        let next := s.sampleNext offset n buf
        if next = [] then some { s with pc := if buf = [] then .done else .send offset buf 0 }
        else some { s with pc := afterRead offset count (buf ++ next) }
      else none
    | _ => none
  | .send n =>
    match s.pc with
    | .send offset buf total =>
      if total < buf.length ∧ n ≤ buf.length - total then
        if n = 0 then
          some { s with pc := if total = 0 then .done else .send offset (buf.take total) total }
        else some { s with master := s.storeNext offset total n buf, pc := .send offset buf (total + n) }
      else none
    | _ => none
  | .sendFails n =>
    match s.pc with
    | .send offset buf total =>
      if total < buf.length then some { s with master := s.storeNext offset total n buf, pc := .done }
      else none
    | _ => none
  | .giveUp =>
    match s.pc with
    | .read .. => some { s with pc := .done }
    | .send _ _ 0 => some { s with pc := .done }
    | _ => none
  | .remove =>
    match s.pc with
    | .send offset buf total =>
      if h : total = buf.length ∧ 0 < total then
        some { s with
          fh := { s.fh with modified := s.fh.modified.delete offset (offset + total) (by omega) }
          pc := .lookup (offset + total) }
      else none
    | _ => none
  | .resize =>
    match s.pc with
    | .done => some { s with master := s.master.truncate s.fh.attr.size }
    | _ => none
  | .restart =>
    match s.pc with
    | .done => some { s with pc := .lookup 0 }
    | _ => none

def sent (s : ReintState) : ReintEvent → List Sample
  | .send _ | .sendFails _ =>
    match s.pc with
    | .send _ buf total => buf.drop total
    | _ => []
  | _ => []

/-- The part of the buffer that was read from the file and is not yet removed from the tree. -/
def inFlight (s : ReintState) : ℕ × List Sample :=
  match s.pc with
  | .read offset _ buf => (offset, buf)
  | .send offset buf _ => (offset, buf)
  | _ => (0, [])

end ReintState

end ZFS
