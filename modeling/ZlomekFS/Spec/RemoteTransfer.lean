import ZlomekFS.Lib.Transfers
import ZlomekFS.Spec.Messages
import ZlomekFS.Spec.Requests

/-! `full_remote_read` and `full_remote_write_dentry` of `file.c` with `remote_read` and `remote_write`. The master is a
sequence of answers, of which each call takes the next one. The memory of the caller is numbered from the start of the
buffer, so that an index of `count` or more lies behind the block that was asked for. -/

namespace ZFS.Remote
open Protocol Requests Transfers

def ZFS_LAST_DECODED_ERROR : ℤ := -99

structure Answer where
  retval : ℤ
  dcReply : DC

def finishDecoding (dc : DC) : Bool := dc.curLength = dc.maxLength

def Answer.result {α : Type} (decode : Coding α) (a : Answer) : Except ℤ α :=
  if a.retval = ZFS_OK then
    match decode a.dcReply with
    | (some res, dc) => if finishDecoding dc then .ok res else .error ZFS_INVALID_REPLY
    | (none, _) => .error ZFS_INVALID_REPLY
  else if ZFS_LAST_DECODED_ERROR ≤ a.retval && !finishDecoding a.dcReply then .error ZFS_INVALID_REPLY
  else .error a.retval

section
variable (answers : ℕ → Answer) (offset : UInt64) (count : UInt32)

/-! ## Reading -/

structure ReadExchange where
  total : ℕ
  offset : ℕ
  res : ReadRes

structure ReadState where
  mem : ℕ → UInt8
  version : Option UInt64
  calls : ℕ
  exchanges : List ReadExchange

/-- `remote_read` copies all that was delivered. -/
def ReadState.copy (s : ReadState) (total : ℕ) (res : ReadRes) : ReadState :=
  { s with
    calls := s.calls + 1
    mem := Packets.put s.mem total res.data.1
    exchanges := s.exchanges ++ [⟨total, u64 (offset.toNat + total), res⟩] }

def readRound (total : ℕ) (s : ReadState) : Round ℤ ReadState :=
  match (answers s.calls).result decodeReadRes with
  | .error r => .stop r { s with calls := s.calls + 1 }
  | .ok res =>
    let s := s.copy offset total res
    if s.version.any (· ≠ res.version) then .stop ZFS_CHANGED { s with version := some res.version }
    else .moved res.data.1.length s

/-- `full_remote_read`; `version` is missing where the pointer is `NULL`. -/
def fullRemoteRead (mem : ℕ → UInt8) (version : Option UInt64) (fuel : ℕ) : Option (Except ℤ ℕ × ReadState) :=
  loop (2 ^ 32) count.toNat (readRound answers offset) fuel 0 ⟨mem, version, 0, []⟩

def readVisits (mem : ℕ → UInt8) (version : Option UInt64) (fuel : ℕ) : List (ℕ × ReadState) :=
  visits (2 ^ 32) count.toNat (readRound answers offset) fuel 0 ⟨mem, version, 0, []⟩

/-! ## Writing -/

structure WriteExchange where
  offset : ℕ
  data : List UInt8
  written : ℕ

structure WriteState where
  versionIncrease : ℕ
  calls : ℕ
  exchanges : List WriteExchange

def WriteState.send (s : WriteState) (buffer : ℕ → UInt8) (total : ℕ) (res : WriteRes) : WriteState :=
  { s with
    calls := s.calls + 1
    exchanges := s.exchanges ++
      [⟨u64 (offset.toNat + total), Packets.get buffer total (count.toNat - total), res.written.toNat⟩] }

def writeRound (buffer : ℕ → UInt8) (total : ℕ) (s : WriteState) : Round ℤ WriteState :=
  match (answers s.calls).result decodeWriteRes with
  | .error r => .stop r { s with calls := s.calls + 1 }
  | .ok res =>
    let s := s.send offset count buffer total res
    if res.written = 0 then .moved 0 s
    else .moved res.written.toNat { s with versionIncrease := u64 (s.versionIncrease + 1) }

def fullRemoteWriteDentry (buffer : ℕ → UInt8) (versionIncrease fuel : ℕ) : Option (Except ℤ ℕ × WriteState) :=
  loop (2 ^ 32) count.toNat (writeRound answers offset count buffer) fuel 0 ⟨versionIncrease, 0, []⟩

def writeVisits (buffer : ℕ → UInt8) (versionIncrease fuel : ℕ) : List (ℕ × WriteState) :=
  visits (2 ^ 32) count.toNat (writeRound answers offset count buffer) fuel 0 ⟨versionIncrease, 0, []⟩

/-! ## What the functions are for -/

/-- Nothing behind the block is touched, and what is reported was delivered for its offset. -/
structure ReadRight (mem : ℕ → UInt8) (r : Except ℤ ℕ × ReadState) : Prop where
  beyond : ∀ i, count.toNat ≤ i → r.2.mem i = mem i
  total_le : ∀ t, r.1 = .ok t → t ≤ count.toNat
  delivered : ∀ t, r.1 = .ok t → ∀ i < t, ∃ x ∈ r.2.exchanges, ∃ j, x.res.data.1[j]? = some (r.2.mem i) ∧
    u64 (x.offset + j) = u64 (offset.toNat + i)

def ReadsRight (version : Option UInt64) : Prop :=
  ∀ mem, ∃ fuel r, fullRemoteRead answers offset count mem version fuel = some r ∧ ReadRight offset count mem r

/-- What is counted was sent for its offset, in the answer that counts it and in the total that is reported. -/
structure WriteRight (buffer : ℕ → UInt8) (r : Except ℤ ℕ × WriteState) : Prop where
  total_le : ∀ t, r.1 = .ok t → t ≤ count.toNat
  sent : ∀ x ∈ r.2.exchanges, ∀ j < x.written, ∃ i < count.toNat, x.data[j]? = some (buffer i) ∧
    u64 (x.offset + j) = u64 (offset.toNat + i)
  reported : ∀ t, r.1 = .ok t → ∀ i < t, ∃ x ∈ r.2.exchanges, ∃ j < x.written, x.data[j]? = some (buffer i) ∧
    u64 (x.offset + j) = u64 (offset.toNat + i)

def WritesRight (buffer : ℕ → UInt8) (versionIncrease : ℕ) : Prop :=
  ∃ fuel r, fullRemoteWriteDentry answers offset count buffer versionIncrease fuel = some r ∧
    WriteRight offset count buffer r

def ReadFits (x : ℕ × ReadState) : Prop :=
  ∀ res, (answers x.2.calls).result decodeReadRes = .ok res → x.1 + res.data.1.length ≤ count.toNat

def WriteFits (x : ℕ × WriteState) : Prop :=
  ∀ res, (answers x.2.calls).result decodeWriteRes = .ok res → x.1 + res.written.toNat ≤ count.toNat

end

end ZFS.Remote
