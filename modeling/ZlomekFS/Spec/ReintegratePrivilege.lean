import ZlomekFS.Spec.Connections

/-! The privilege to reintegrate a file, `local_reintegrate` in `dir.c`, on the node that grants it. The connections and
the threads that serve requests are those of the network. Nodes are not removed, and a handle is destroyed only by
`cleanup_unused_dentries`. -/

namespace ZFS.Privilege
open Network

variable {ι : Type}

structure Handle where
  reintegratingSid : UInt32
  reintegratingGeneration : UInt32

inductive Status
  | ok | busy | invalid
  deriving DecidableEq, Repr

/-- `node_connected`: the generation of the descriptor. -/
def nodeConnected (net : State ι) (sid : UInt32) : Option UInt32 :=
  (net.nodeFd sid).map fun fd => (net.fds fd).generation

/-- `local_reintegrate` for the thread with the request `t`. -/
def localReintegrate (net : State ι) (fh : Handle) (t : Request) (status : Bool) : Handle × Status :=
  if status then
    if fh.reintegratingSid ≠ 0 ∧ nodeConnected net fh.reintegratingSid = some fh.reintegratingGeneration then
      (fh, .busy)
    else (⟨t.fromSid, t.generation⟩, .ok)
  else if fh.reintegratingSid ≠ t.fromSid then (fh, .invalid)
  else ({ fh with reintegratingSid := 0 }, .ok)

structure Dentry where
  only : Bool
  cap : Bool
  locked : Bool
  lastUse : ℕ
  shouldHaveCleanupNode : Bool

def dentryNeverCleanup (fh : Handle) (dentry : Dentry) : Bool :=
  dentry.only && (dentry.cap || dentry.locked || fh.reintegratingSid != 0)

/-- `dentry_key`; `none` is `FIBHEAPKEY_MAX`. -/
def dentryKey (fh : Handle) (dentry : Dentry) : Option ℕ :=
  if dentryNeverCleanup fh dentry then none else some dentry.lastUse

/-- `cleanup_unused_dentries` for a dentry whose node was taken out of the heap: what is left of the handle. -/
def cleanupUnusedDentries (fh : Handle) (dentry : Dentry) (threshold : ℕ) : Option Handle :=
  if dentry.shouldHaveCleanupNode then some fh
  else if ∀ key ∈ dentryKey fh dentry, threshold ≤ key then some fh
  else if dentry.only then none
  else some fh

/-- The node, its handle of the file if it is cached, and the descriptors whose connections were granted the privilege
and have not released it. -/
structure Master (ι : Type) where
  net : State ι
  fh : Option Handle
  holds : ℕ → Bool

inductive Event (ι : Type)
  | network (e : Network.Event ι)
  | closeNetworkFd (fd : ℕ)
  | create
  | reintegrate (i : ι) (status : Bool)
  | reintegrateVer (i : ι)
  | cleanup (dentry : Dentry) (threshold : ℕ)

namespace Master

variable [DecidableEq ι] (s : Master ι)

def Current (r : Request) : Prop := (s.net.fds r.fdData).connection = some r.connection

instance (r : Request) : Decidable (s.Current r) := inferInstanceAs (Decidable (_ = _))

/-- `local_reintegrate`, with what is noted about the connection of the request. -/
def serve (i : ι) (r : Request) (status : Bool) : Master ι :=
  match s.fh with
  | none => { s with net := s.net.setWorker i .idle }
  | some fh =>
    let (fh', result) := localReintegrate s.net fh r status
    let net := if status ∧ fh.reintegratingSid ≠ 0 then s.net.nodeHasValidFd fh.reintegratingSid else s.net
    { net := net.setWorker i .idle
      fh := some fh'
      holds := if result = .ok ∧ s.Current r then Function.update s.holds r.fdData status else s.holds }

/-- The record that gets a new connection or loses its connection. -/
def renewed : Network.Event ι → Option ℕ
  | .accept fd | .close fd => some fd
  | .addFdToActive i => (s.net.clients i).pending
  | _ => none

def step : Event ι → Option (Master ι)
  | .network e =>
    (s.net.step e).map fun net => { s with
      net := net
      holds := (s.renewed e).elim s.holds fun fd => Function.update s.holds fd false }
  | .closeNetworkFd fd => some { s with net := s.net.closeNetworkFd (some fd) }
  | .create => if s.fh.isNone then some { s with fh := some ⟨0, 0⟩ } else none
  | .reintegrate i status =>
    match s.net.workers i with
    | .serving r .reintegrate => some (s.serve i r status)
    | _ => none
  | .reintegrateVer i =>
    match s.net.workers i with
    | .serving r .reintegrateVer => some (s.serve i r false)
    | _ => none
  | .cleanup dentry threshold =>
    s.fh.map fun fh => { s with fh := cleanupUnusedDentries fh dentry threshold }

def start (thisNode : UInt32) : Master ι := ⟨State.start thisNode, none, fun _ => false⟩

/-! ## Exclusion -/

/-- A connection that holds the privilege and is neither closed nor about to be closed. -/
def Holder (fd : ℕ) : Prop := s.holds fd = true ∧ (s.net.fds fd).close = false

def NodeHas (net : State ι) (sid : UInt32) (fd : ℕ) (generation : UInt32) : Prop :=
  net.nodes sid = ⟨some fd, generation⟩ ∧ (net.fds fd).generation = generation

/-- The handle has a node, and the connection of the node is the one on `fd`. -/
def Records (fd : ℕ) : Prop :=
  ∃ fh, s.fh = some fh ∧ fh.reintegratingSid ≠ 0 ∧
    NodeHas s.net fh.reintegratingSid fd fh.reintegratingGeneration

/-- At most one connection has the privilege, it is not taken away from it, and nobody else is granted it. -/
structure Exclusive : Prop where
  one : ∀ fd fd', s.Holder fd → s.Holder fd' → fd = fd'
  kept : ∀ fd, s.Holder fd → s.Records fd
  refused : ∀ fd fh, s.Holder fd → s.fh = some fh → ∀ t, localReintegrate s.net fh t true = (fh, .busy)

/-- A release comes over the connection of the holder if it is from the node of the holder. -/
def ReleaseSafe (i : ι) : Prop :=
  ∀ r ∈ (s.net.workers i).handled, ∀ fh ∈ s.fh, fh.reintegratingSid = r.fromSid →
    ∀ fd, s.Holder fd → s.Current r ∧ fd = r.fdData

/-- The handle has a node that still has the connection with the generation in the handle. -/
def Busy (fh : Handle) : Prop :=
  fh.reintegratingSid ≠ 0 ∧ nodeConnected s.net fh.reintegratingSid = some fh.reintegratingGeneration

/-- A release is not from an earlier connection of the node of the holder. The privilege is granted to the connection
that the node in the request has. A node whose connection is the holder loses it only when it is closed. -/
def Safe : Event ι → Prop
  | .reintegrate i true =>
    ∀ r ∈ (s.net.workers i).handled, ∀ fh ∈ s.fh, ¬ s.Busy fh → s.Current r → (s.net.fds r.fdData).close = false →
      r.fromSid ≠ 0 ∧ NodeHas s.net r.fromSid r.fdData r.generation
  | .reintegrate i false | .reintegrateVer i => s.ReleaseSafe i
  | .network (.fail i) =>
    ∀ fd generation nod, s.net.clients i = .failed fd generation (some nod) → ∀ fh ∈ s.fh, fh.reintegratingSid = nod →
      ∀ fd', s.Holder fd' → fd' = fd ∧ (s.net.fds fd).generation = generation
  | _ => True

end Master

end ZFS.Privilege
