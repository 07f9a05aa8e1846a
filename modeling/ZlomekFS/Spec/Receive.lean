import ZlomekFS.Lib.Framing
import ZlomekFS.Lib.Runs
import ZlomekFS.Spec.DataCoding

/-! The receiving part of `network_main`, `network/network.c`: one connection, the packet that is being read
into `dc[0]`, and the calls of `read` that the main thread makes when the socket is readable. -/

namespace ZFS.Protocol
open Bytes Packets Framing

/-- An `unsigned int` that is assigned to an `int`. -/
def toInt (n : ℕ) : ℤ := if n < 2 ^ 31 then n else n - 2 ^ 32

/-- An `int` that is passed as `size_t`. -/
def toSize (l : ℤ) : ℕ := (l % 2 ^ 64).toNat

/-- `start_decoding`: the length of the packet is decoded to `max_length`. -/
def startDecoding (dc : DC) : Bool × DC :=
  let (length, dc) := decodeUint32 { dc with curPos := 0, maxLength := 4, curLength := 0 }
  let dc := match length with
    | some length => { dc with maxLength := length.toNat }
    | none => dc
  (dc.maxLength ≤ ZFS_DC_SIZE, dc)

structure FdData where
  read : ℕ
  dc : DC

inductive Target
  | buffer (pos : ℕ)
  | dummy
  deriving DecidableEq, Repr

structure ReadCall where
  target : Target
  count : ℕ
  deriving DecidableEq, Repr

namespace FdData

def readCall (fd : FdData) : ReadCall :=
  if fd.read < 4 then ⟨.buffer fd.read, 4 - fd.read⟩
  else if fd.dc.maxLength ≤ ZFS_DC_SIZE then ⟨.buffer fd.read, sub32 fd.dc.maxLength fd.read⟩
  -- the header up to the request ID
  else if fd.read < 12 then ⟨.buffer fd.read, 12 - fd.read⟩
  else
    -- the rest of a long packet
    let l := toInt (sub32 fd.dc.maxLength fd.read)
    ⟨.dummy, toSize (if (ZFS_MAXDATA : ℤ) < l then ZFS_MAXDATA else l)⟩

def store (fd : FdData) (bytes : List UInt8) : FdData :=
  let buffer := match fd.readCall.target with
    | .buffer pos => put fd.dc.buffer pos bytes
    | .dummy => fd.dc.buffer
  { fd with dc.buffer := buffer, read := u32 (fd.read + bytes.length) }

/-- The loop after a `read` that has returned bytes, and whether the packet is complete. -/
def receive (fd : FdData) (bytes : List UInt8) : FdData × Bool :=
  let fd' := fd.store bytes
  if fd.read < 4 then (if fd'.read = 4 then { fd' with dc := (startDecoding fd'.dc).2 } else fd', false)
  else (fd', fd'.dc.maxLength = fd'.read)

end FdData

/-- A connection with what has come from the peer and the packets that `network_dispatch` got. -/
structure Receiving where
  fd : FdData
  stream : List UInt8
  dispatched : List DC

/-- The connection is readable: `read` returns some bytes, at most as many as were asked for. When the packet
is complete it is dispatched; `next` is the buffer that is `dc[0]` then. With no bytes or an error the
connection is closed, there is no such step. -/
def Receiving.step (s : Receiving) (e : List UInt8 × DC) : Option Receiving :=
  let (bytes, next) := e
  if bytes = [] ∨ s.fd.readCall.count < bytes.length then none
  else
    let (fd, complete) := s.fd.receive bytes
    some (if complete then ⟨⟨0, next⟩, s.stream ++ bytes, s.dispatched ++ [fd.dc]⟩
      else ⟨fd, s.stream ++ bytes, s.dispatched⟩)

def Receiving.start (dc : DC) : Receiving := ⟨⟨0, dc⟩, [], []⟩

/-! ## What the loop is for -/

def ReadCall.Fits (call : ReadCall) : Prop :=
  match call.target with
  | .buffer pos => pos + call.count ≤ ZFS_DC_SIZE
  | .dummy => call.count ≤ ZFS_MAXDATA

instance : (call : ReadCall) → Decidable call.Fits
  | ⟨.buffer _, _⟩ | ⟨.dummy, _⟩ => inferInstanceAs (Decidable (_ ≤ _))

/-- The buffer that is dispatched holds the packet, or the header of a packet that is too long. -/
structure Carries (dc : DC) (p : List UInt8) : Prop where
  curPos : dc.curPos = 4
  curLength : dc.curLength = 4
  maxLength : dc.maxLength = p.length
  bytes : Lies dc.buffer 0 (if p.length ≤ ZFS_DC_SIZE then p else p.take 12)

/-- The next `read` stays inside its buffer, and the packets in the stream were dispatched. -/
structure Receiving.Good (s : Receiving) : Prop where
  fits : s.fd.readCall.Fits
  dispatched : ∃ packets l, Decomposes 4 ofLE s.stream packets l ∧ List.Forall₂ Carries s.dispatched packets

/-- A length that the loop can cope with: a packet is longer than the length itself, and the rest of a long
packet is an `int`. -/
def Receiving.LengthOk (s : Receiving) : Prop :=
  4 ≤ s.fd.read → 4 < s.fd.dc.maxLength ∧
    (ZFS_DC_SIZE < s.fd.dc.maxLength → 12 ≤ s.fd.read → s.fd.dc.maxLength - s.fd.read < 2 ^ 31)

/-! ## The other side -/

def finishEncoding (dc : DC) : DC := { dc with buffer := put dc.buffer 0 (toLE 4 dc.curLength) }

/-- What `full_write` sends of a buffer in which something was encoded. -/
def DC.packet (dc : DC) : List UInt8 := Packets.get (finishEncoding dc).buffer 0 dc.curLength

end ZFS.Protocol
