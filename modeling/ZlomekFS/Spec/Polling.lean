import ZlomekFS.Lib.Indexed
import ZlomekFS.Spec.Connections

/-! One round of `network_main`, `network/network.c`, up to the listening socket. The main thread fills `pfd` from
`active`, polls it without `active_mutex`, and then processes its entries from the last one to the first one. The
results of the calls are arguments, so the requested events of an entry are left out. -/

namespace ZFS.Network.Polling
open Indexed

def NODE_CONNECT_TIMEOUT : ℕ := 2

/-- The masks `CANNOT_RW`, `CAN_READ` and `CAN_WRITE` of the events of a descriptor. -/
structure Revents where
  cannotRw : Bool
  canRead : Bool
  canWrite : Bool

/-- The record of the network with the fields that only the main thread reads; `maxLength` is the one of `dc[0]`. -/
structure FdData extends Network.FdData where
  busy : ℕ
  read : ℕ
  maxLength : ℕ
  lastUse : ℕ

/-- A member of `active`: the descriptor, and the number of the connection among all connections so far. -/
structure Member where
  fd : ℕ
  connection : ℕ

inductive Source
  | none | listening
  | connection (c : ℕ)
  deriving DecidableEq

structure PollFd where
  fd : ℕ
  revents : Revents
  source : Source

/-- What the calls for an entry return: the error of the socket, unless `getsockopt` fails; the number of bytes that
are read, `0` also for an error; the length that `start_decoding` finds. -/
structure Results where
  sockopt : Option ℕ
  read : ℕ
  length : ℕ

/-- The record after an entry with the events `e` is processed, and whether the connection is to be closed. -/
def process (now : ℕ) (r : Results) (e : Revents) (d : FdData) : FdData × Bool :=
  if e.cannotRw ∨ (d.close ∧ d.busy = 0 ∧ d.read = 0) then (d, true)
  else if d.conn = .connecting then
    if e.canWrite then if r.sockopt = some 0 then ({ d with conn := .active }, false) else (d, true)
    else (d, d.lastUse + NODE_CONNECT_TIMEOUT < now)
  else if e.canRead then
    let d := { d with lastUse := now }
    if r.read = 0 then (d, true)
    else if d.read < 4 then
      ({ d with read := d.read + r.read, maxLength := if d.read + r.read = 4 then r.length else d.maxLength }, false)
    else ({ d with read := if d.read + r.read = d.maxLength then 0 else d.read + r.read }, false)
  else (d, false)

/-! ## The pass -/

structure Scan where
  fdData : ℕ → FdData
  active : List Member
  visits : List (PollFd × Member)

namespace Scan

variable (pfd : ℕ → PollFd) (now : ℕ) (res : ℕ → Results)

def closeActiveFd (c : Scan) (i : ℕ) (a : Member) : Scan :=
  { c with
    fdData := Function.update c.fdData a.fd { c.fdData a.fd with toFdData := (c.fdData a.fd).closed }
    active := swapRemove c.active i }

/-- The body of the loop: the record is found by `pfd`, but `active` says what is closed. -/
def visit (c : Scan) (i : ℕ) : Scan :=
  match c.active[i]? with
  | none => c
  | some a =>
    let r := process now (res i) (pfd i).revents (c.fdData (pfd i).fd)
    let c : Scan := ⟨Function.update c.fdData (pfd i).fd r.1, c.active, c.visits ++ [(pfd i, a)]⟩
    if r.2 then c.closeActiveFd i a else c

def pass : ℕ → Scan → Scan
  | 0, c => c
  | i + 1, c => pass i (c.visit pfd now res i)

end Scan

/-! ## The threads -/

/-- Where a connection is found, its number was given out before. The entries of `pfd` that are not filled in this
round have what was there before. -/
structure State where
  mainSocket : ℕ
  acceptConnections : Bool
  fdData : ℕ → FdData
  active : List Member
  pfd : ℕ → PollFd
  opened : ℕ
  active_lt : ∀ a ∈ active, a.connection < opened
  pfd_lt : ∀ i c, (pfd i).source = .connection c → c < opened

/-- What the other threads do: they add a connection, ask for a close, or change a record. -/
inductive Action
  | addFdToActive (fd now : ℕ)
  | closeNetworkFd (fd : ℕ)
  | update (fd : ℕ) (data : FdData)

namespace State

variable (s : State)

def fillPfd (i : ℕ) : PollFd :=
  match s.active[i]? with
  | some a => ⟨a.fd, ⟨false, false, false⟩, .connection a.connection⟩
  | none =>
    if i = s.active.length ∧ s.acceptConnections then ⟨s.mainSocket, ⟨false, false, false⟩, .listening⟩ else s.pfd i

theorem fillPfd_lt (i c : ℕ) (h : (s.fillPfd i).source = .connection c) : c < s.opened := by
  rw [fillPfd] at h
  split at h
  case h_1 a ha =>
    rw [← Source.connection.inj h]
    exact s.active_lt a (List.mem_of_getElem? ha)
  case h_2 =>
    split_ifs at h
    exact s.pfd_lt i c h

def fill : State := { s with pfd := s.fillPfd, pfd_lt := s.fillPfd_lt }

def addFdToActive (fd now : ℕ) : State :=
  { s with
    fdData := Function.update s.fdData fd
      { s.fdData fd with toFdData := (s.fdData fd).init s.opened, busy := 0, read := 0, lastUse := now }
    active := s.active ++ [⟨fd, s.opened⟩]
    opened := s.opened + 1
    active_lt := by
      intro a ha
      obtain ha | ha := List.mem_append.mp ha
      · exact Nat.lt_succ_of_lt (s.active_lt a ha)
      · rw [List.mem_singleton.mp ha]
        exact Nat.lt_succ_self _
    pfd_lt := fun i c hc => Nat.lt_succ_of_lt (s.pfd_lt i c hc) }

def act : Action → State
  | .addFdToActive fd now => s.addFdToActive fd now
  | .closeNetworkFd fd => { s with fdData := Function.update s.fdData fd { s.fdData fd with close := true } }
  | .update fd data => { s with fdData := Function.update s.fdData fd data }

def polled (k : ℕ) (revents : ℕ → Revents) (i : ℕ) : PollFd :=
  if i < k then { s.pfd i with revents := revents i } else s.pfd i

/-- A round in which the other threads do `acts` until the main thread has `active_mutex` again: `active` at the
beginning of the pass, and the pass; there is none when `poll` fails. The pass begins with the current number of
connections. -/
def networkMain (acts : List Action) (poll : Option (ℕ → Revents)) (now : ℕ) (res : ℕ → Results) :
    Option (List Member × Scan) :=
  poll.map fun revents =>
    let s' := acts.foldl act s.fill
    let pfd := s'.polled (s.active.length + s.acceptConnections.toNat) revents
    (s'.active, Scan.pass pfd now res s'.active.length ⟨s'.fdData, s'.active, []⟩)

end State

/-- Each entry that was processed was filled for the connection at its index, so it is not the one of the listening
socket, and each connection was processed once. -/
structure Matched (active : List Member) (c : Scan) : Prop where
  entry : ∀ v ∈ c.visits, v.1.fd = v.2.fd ∧ v.1.source = .connection v.2.connection
  once : c.visits.map Prod.snd = active.reverse

end ZFS.Network.Polling
