import ZlomekFS.Lib.Runs
import ZlomekFS.Lib.Threads
import ZlomekFS.Spec.DataCoding

/-! Requests and replies, `network/network.c`: `send_request`, the replies in `network_dispatch`, the timeouts in
`network_main`, `wake_all_threads` and `close_active_fd`. The steps are the sections of the code in which the
mutex of the connection is held. The hash table `waiting4reply` is the list of its entries, and the Fibonacci heap
the list of its nodes. -/

namespace ZFS.Requests
open Protocol

def ZFS_REPLY_TOO_LONG : ℤ := -100

def ZFS_INVALID_REPLY : ℤ := -101

def ZFS_EXITING : ℤ := -151

def ZFS_CONNECTION_CLOSED : ℤ := -154

def ZFS_REQUEST_TIMEOUT : ℤ := -155

def REQUEST_TIMEOUT : UInt32 := 15

structure Waiting4reply (ι : Type) where
  requestId : UInt32
  t : ι
  key : UInt32
  deriving DecidableEq, Repr

structure FdData (ι : Type) where
  isActive : Bool
  speed : ConnectionSpeed
  waiting4reply : List (Waiting4reply ι)
  waiting4replyHeap : List (Waiting4reply ι)

inductive Position
  | outside
  | waiting (fd : ℕ) (requestId : UInt32) (slow : Bool)
  | failed (slow : Bool)
  deriving DecidableEq, Repr

structure Thread where
  position : Position
  sem : ℕ
  retval : ℤ
  dcReply : Option DC

def Thread.slow (t : Thread) : Bool :=
  match t.position with
  | .waiting _ _ slow | .failed slow => slow
  | .outside => false

namespace FdData

variable {ι : Type} [DecidableEq ι] (fd : FdData ι)

def insert (wd : Waiting4reply ι) : FdData ι :=
  { fd with
    waiting4reply := wd :: fd.waiting4reply.filter (·.requestId ≠ wd.requestId)
    waiting4replyHeap := wd :: fd.waiting4replyHeap }

def clear (wd : Waiting4reply ι) : FdData ι :=
  { fd with
    waiting4reply := fd.waiting4reply.filter (·.requestId ≠ wd.requestId)
    waiting4replyHeap := fd.waiting4replyHeap.erase wd }

end FdData

structure State (ι : Type) where
  fds : ℕ → FdData ι
  requestId : UInt32
  terminate : Bool
  pendingSlowReqsCount : UInt32
  threads : ι → Thread

inductive Event (ι : Type)
  | connect (fd : ℕ)
  | measure (fd : ℕ) (speed : ConnectionSpeed)
  /-- A request ID is taken for a one-way request, or for a request that is too long. -/
  | skip
  | send (i : ι) (fd : ℕ) (now : UInt32) (written : Bool)
  | dispatch (fd : ℕ) (dc : DC)
  /-- The loop in `network_main` that times out old requests. -/
  | timeout (fd : ℕ) (now : UInt32)
  | close (fd : ℕ)
  | shutdown (fd : ℕ)
  | terminate
  | resume (i : ι)
  | fail (i : ι)

namespace State

variable {ι : Type} [DecidableEq ι] (s : State ι)

def wake (fd : ℕ) (wd : Waiting4reply ι) (answer : Thread → Thread) : State ι :=
  let t := answer (s.threads wd.t)
  { s with
    fds := Function.update s.fds fd ((s.fds fd).clear wd)
    threads := Function.update s.threads wd.t { t with sem := t.sem + 1 } }

def wakeAllThreads (fd : ℕ) (retval : ℤ) : State ι :=
  (s.fds fd).waiting4reply.foldl (fun s wd => s.wake fd wd fun t => { t with retval := retval }) s

/-- The loop that times out requests; `n` is the number of entries. -/
def timeoutRequests (fd : ℕ) (threshold : UInt32) : ℕ → State ι → State ι
  | 0, s => s
  | n + 1, s =>
    match (s.fds fd).waiting4replyHeap.argmin (·.key.toNat) with
    -- `FIBHEAPKEY_MAX`
    | none => s
    | some wd =>
      if wd.key < threshold then
        timeoutRequests fd threshold n (s.wake fd wd fun t => { t with retval := ZFS_REQUEST_TIMEOUT })
      else s

/-- `network_dispatch`; requests are passed to other threads. -/
def networkDispatch (fd : ℕ) (dc : DC) : State ι :=
  match decodeDirection dc with
  | (some .reply, dc) =>
    match decodeUint32 dc with
    | (some requestId, dc) =>
      match (s.fds fd).waiting4reply.find? (·.requestId = requestId) with
      | some wd => s.wake fd wd fun t => { t with dcReply := some dc }
      | none => s
    | _ => s
  | _ => s

def sendRequest (i : ι) (fd : ℕ) (now : UInt32) (written : Bool) : State ι :=
  let requestId := s.requestId
  let s := { s with requestId := requestId + 1 }
  let t := { s.threads i with dcReply := none }
  if s.terminate then { s with threads := Function.update s.threads i { t with retval := ZFS_EXITING } }
  else
    let slow := decide ((s.fds fd).speed = .slow)
    let count := if slow then s.pendingSlowReqsCount + 1 else s.pendingSlowReqsCount
    let wd : Waiting4reply ι := ⟨requestId, i, now⟩
    let data := (s.fds fd).insert wd
    if written then
      { s with
        fds := Function.update s.fds fd data
        pendingSlowReqsCount := count
        threads := Function.update s.threads i { t with position := .waiting fd requestId slow, retval := ZFS_OK } }
    else
      { s with
        fds := Function.update s.fds fd (data.clear wd)
        pendingSlowReqsCount := count
        threads := Function.update s.threads i { t with position := .failed slow, retval := ZFS_CONNECTION_CLOSED } }

/-- The return value of a thread that was woken up: that of the reply, if there is one. -/
def decodeReply (t : Thread) : Thread :=
  match t.dcReply with
  | some dc =>
    if t.retval = ZFS_OK then
      if ZFS_DC_SIZE < dc.maxLength then { t with retval := ZFS_REPLY_TOO_LONG }
      else match decodeInt32 dc with
        | (some retval, dc) => { t with retval := retval.toInt, dcReply := some dc }
        | (none, dc) => { t with retval := ZFS_INVALID_REPLY, dcReply := some dc }
    else t
  | none => t

def leave (i : ι) (t : Thread) : State ι :=
  { s with
    pendingSlowReqsCount := if t.slow then s.pendingSlowReqsCount - 1 else s.pendingSlowReqsCount
    threads := Function.update s.threads i { t with position := .outside } }

def step : Event ι → Option (State ι)
  | .connect fd =>
    if (s.fds fd).isActive then none
    else some { s with fds := Function.update s.fds fd ⟨true, .none, [], []⟩ }
  | .measure fd speed =>
    if (s.fds fd).isActive then some { s with fds := Function.update s.fds fd { s.fds fd with speed := speed } }
    else none
  | .skip => some { s with requestId := s.requestId + 1 }
  | .send i fd now written =>
    if (s.threads i).position = .outside ∧ (s.fds fd).isActive = true then some (s.sendRequest i fd now written)
    else none
  | .dispatch fd dc => if (s.fds fd).isActive then some (s.networkDispatch fd dc) else none
  | .timeout fd now =>
    let threshold := if now ≤ REQUEST_TIMEOUT then 1 else now - REQUEST_TIMEOUT
    if (s.fds fd).isActive then some (timeoutRequests fd threshold (s.fds fd).waiting4replyHeap.length s) else none
  | .close fd =>
    if (s.fds fd).isActive then
      let s := s.wakeAllThreads fd ZFS_CONNECTION_CLOSED
      some { s with fds := Function.update s.fds fd ⟨false, .none, [], []⟩ }
    else none
  | .shutdown fd => if (s.fds fd).isActive then some (s.wakeAllThreads fd ZFS_EXITING) else none
  | .terminate => some { s with terminate := true }
  | .resume i =>
    match (s.threads i).position with
    | .waiting _ _ _ =>
      if 0 < (s.threads i).sem then
        some (s.leave i (decodeReply { s.threads i with sem := (s.threads i).sem - 1 }))
      else none
    | _ => none
  | .fail i =>
    match (s.threads i).position with
    | .failed _ => some (s.leave i (s.threads i))
    | _ => none

end State

def State.start (ι : Type) : State ι where
  fds _ := ⟨false, .none, [], []⟩
  requestId := 0
  terminate := false
  pendingSlowReqsCount := 0
  threads _ := ⟨.outside, 0, ZFS_OK, none⟩

/-! ## What the table is for -/

/-- The packet is a reply to the request; `dc'` is what is left of it. -/
def IsReply (dc : DC) (requestId : UInt32) (dc' : DC) : Prop :=
  ∃ dc₁, decodeDirection dc = (some .reply, dc₁) ∧ decodeUint32 dc₁ = (some requestId, dc')

def Thread.Answered (t : Thread) (requestId : UInt32) : Prop :=
  (t.retval = ZFS_OK ∧ ∃ dc dc', IsReply dc requestId dc' ∧ t.dcReply = some dc') ∨
    t.retval = ZFS_CONNECTION_CLOSED ∨ t.retval = ZFS_REQUEST_TIMEOUT ∨ t.retval = ZFS_EXITING

namespace State

variable {ι : Type} [Fintype ι]

def Registered (s : State ι) (i : ι) : Prop := ∃ fd, ∃ wd ∈ (s.fds fd).waiting4reply, wd.t = i

/-- A thread that waits for a reply is in the table and was not woken up yet, or it is in no table any more and was
woken up once. -/
structure Delivers (s : State ι) : Prop where
  waiting : ∀ i fd requestId slow, (s.threads i).position = .waiting fd requestId slow →
    ((s.threads i).sem = 0 ∧ ∃ wd ∈ (s.fds fd).waiting4reply, wd.t = i ∧ wd.requestId = requestId) ∨
      ((s.threads i).sem = 1 ∧ ¬ s.Registered i ∧ (s.threads i).Answered requestId)
  others : ∀ i, (∀ fd requestId slow, (s.threads i).position ≠ .waiting fd requestId slow) →
    (s.threads i).sem = 0 ∧ ¬ s.Registered i
  same : ∀ fd wd, wd ∈ (s.fds fd).waiting4reply ↔ wd ∈ (s.fds fd).waiting4replyHeap
  slow : s.pendingSlowReqsCount.toNat = Threads.count Thread.slow s.threads

/-- A request ID is used again when all 32-bit numbers were used, whether or not the old request was answered. -/
def SendSafe (s : State ι) : Event ι → Prop
  | .send _ fd _ _ => s.terminate = false →
    (∀ wd ∈ (s.fds fd).waiting4reply, wd.requestId ≠ s.requestId) ∧
      ((s.fds fd).speed = .slow → s.pendingSlowReqsCount.toNat + 1 < 2 ^ 32)
  | _ => True

end State

end ZFS.Requests
