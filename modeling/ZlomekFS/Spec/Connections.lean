import ZlomekFS.Lib.Runs
import ZlomekFS.Spec.Messages

/-! Connections with other nodes, `network/network.c`, and the handlers of `zfs-prot.c` that authenticate them. The
record of a connection is at the index of its descriptor and is used again with the descriptor. The steps are the
sections of the code in which the mutex of a record is held, the comparison of the level in `network_worker` and the
assignments in `node_connect`, which are made without it. A connection is closed whenever the main thread finds an
error on it, so the number of its users and the time of its last use are left out, and so are its speed and the table
of `send_request`. Nodes are found or not as the events say. -/

namespace ZFS.Network
open Protocol

def ZFS_REQUEST_TOO_LONG : ℤ := -1
def ZFS_INVALID_REQUEST : ℤ := -2
def ZFS_UNKNOWN_FUNCTION : ℤ := -3
def ZFS_INVALID_AUTH_LEVEL : ℤ := -4
def ZFS_INVALID_DIRECTION : ℤ := -5

inductive ConnectionStatus
  | none | connecting | active | passive | established
  deriving DecidableEq, Repr

inductive AuthenticationStatus
  | none | q1 | stage1 | q3 | finished
  deriving DecidableEq, Repr

def AuthenticationStatus.code : AuthenticationStatus → ℕ
  | none => 0
  | q1 => 1
  | stage1 => 2
  | q3 => 3
  | finished => 4

/-! ## Functions -/

inductive ZfsProc
  | null | ping | root | volumeRoot | getattr | setattr | lookup | create | openFile | close | readdir | mkdir | rmdir
  | rename | link | unlink | read | write | readlink | symlink | mknod | authStage1 | authStage2 | md5sum | fileInfo
  | rereadConfig | reintegrate | reintegrateAdd | reintegrateDel | reintegrateVer
  deriving DecidableEq, Repr

namespace ZfsProc

def ofNumber : UInt32 → Option ZfsProc
  | 0 => some null
  | 1 => some ping
  | 2 => some root
  | 3 => some volumeRoot
  | 4 => some getattr
  | 5 => some setattr
  | 6 => some lookup
  | 7 => some create
  | 8 => some openFile
  | 9 => some close
  | 10 => some readdir
  | 11 => some mkdir
  | 12 => some rmdir
  | 13 => some rename
  | 14 => some link
  | 15 => some unlink
  | 16 => some read
  | 17 => some write
  | 18 => some readlink
  | 19 => some symlink
  | 20 => some mknod
  | 21 => some authStage1
  | 22 => some authStage2
  | 23 => some md5sum
  | 24 => some fileInfo
  | 25 => some rereadConfig
  | 26 => some reintegrate
  | 27 => some reintegrateAdd
  | 28 => some reintegrateDel
  | 29 => some reintegrateVer
  | _ => none

def args : ZfsProc → Option MessageType
  | null | root => none
  | ping => some .dataBuffer
  | volumeRoot => some .volumeRootArgs
  | getattr | readlink | fileInfo => some .zfsFh
  | setattr => some .setattrArgs
  | lookup | rmdir | unlink => some .dirOpArgs
  | create => some .createArgs
  | openFile => some .openArgs
  | close => some .zfsCap
  | readdir => some .readDirArgs
  | mkdir => some .mkdirArgs
  | rename => some .renameArgs
  | link => some .linkArgs
  | read => some .readArgs
  | write => some .writeArgs
  | symlink => some .symlinkArgs
  | mknod => some .mknodArgs
  | authStage1 => some .authStage1Args
  | authStage2 => some .authStage2Args
  | md5sum => some .md5sumArgs
  | rereadConfig => some .rereadConfigArgs
  | reintegrate => some .reintegrateArgs
  | reintegrateAdd => some .reintegrateAddArgs
  | reintegrateDel => some .reintegrateDelArgs
  | reintegrateVer => some .reintegrateVerArgs

def auth : ZfsProc → AuthenticationStatus
  | null | authStage1 => .none
  | ping | authStage2 => .stage1
  | _ => .finished

def callMode : ZfsProc → Direction
  | rereadConfig => .oneway
  | _ => .request

def decodes (proc : ZfsProc) (dc : DC) : Bool :=
  match proc.args with
  | none => dc.curLength = dc.maxLength
  | some type =>
    match type.codec.decode dc with
    | (some _, dc) => dc.curLength = dc.maxLength
    | (none, _) => false

end ZfsProc

inductive Verdict
  | drop
  | errorReply (status : ℤ)
  | run (proc : ZfsProc)
  deriving DecidableEq, Repr

def sendErrorReply (dir : Direction) (status : ℤ) : Verdict := if dir = .request then .errorReply status else .drop

/-- `network_worker` up to the call of the handler; `auth` is the level in the record of the connection. -/
def networkWorker (dir : Direction) (dc : DC) (auth : AuthenticationStatus) : Verdict :=
  match decodeUint32 dc with
  | (none, _) => .drop
  | (some _, dc) =>
    if ZFS_DC_SIZE < dc.maxLength then sendErrorReply dir ZFS_REQUEST_TOO_LONG
    else
      match decodeUint32 dc with
      | (none, _) => sendErrorReply dir ZFS_INVALID_REQUEST
      | (some fn, dc) =>
        match ZfsProc.ofNumber fn with
        | none => sendErrorReply dir ZFS_UNKNOWN_FUNCTION
        | some proc =>
          if dir ≠ proc.callMode then sendErrorReply dir ZFS_INVALID_DIRECTION
          else if auth.code + 1 < proc.auth.code + 1 then sendErrorReply proc.callMode ZFS_INVALID_AUTH_LEVEL
          else if proc.decodes dc then .run proc
          else sendErrorReply proc.callMode ZFS_INVALID_REQUEST

/-! ## Records and threads -/

/-- The fields of `fd_data_t` that matter here; `fd` is `-1` while there is no connection. -/
structure FdData where
  generation : UInt32
  conn : ConnectionStatus
  auth : AuthenticationStatus
  sid : UInt32
  close : Bool
  isOpen : Bool
  /-- The connection that the record was initialized for, until it is closed. -/
  connection : Option ℕ

namespace FdData

/-- `init_fd_data`; the record does not lose its level and node. -/
def init (data : FdData) (connection : ℕ) : FdData :=
  { data with generation := data.generation + 1, close := false, isOpen := true, connection := some connection }

/-- `close_active_fd` -/
def closed (data : FdData) : FdData :=
  { data with
    generation := data.generation + 1, conn := .none, auth := .none, sid := 0, isOpen := false, connection := none }

end FdData

structure Node where
  fd : Option ℕ
  generation : UInt32

/-- `network_thread_data`; `connection` is the one on which the request has come. -/
structure Request where
  fdData : ℕ
  generation : UInt32
  fromSid : UInt32
  dir : Direction
  dc : DC
  connection : ℕ

inductive Worker
  | idle
  | received (r : Request)
  | serving (r : Request) (proc : ZfsProc)
  | rejecting (r : Request)

namespace Worker

def waiting : Worker → Option Request
  | received r => some r
  | _ => none

def handled : Worker → Option Request
  | serving r _ => some r
  | _ => none

end Worker

inductive Question
  | stage1 | ping | stage2
  deriving DecidableEq, Repr

/-- The variables of `node_authenticate` while a request is sent, and the connection it was sent on. -/
structure Asking where
  question : Question
  fd : ℕ
  generation : UInt32
  sid : UInt32
  auth : AuthenticationStatus
  connection : Option ℕ

inductive Client
  | idle
  | connecting (fd : ℕ) (nod : UInt32) (auth : AuthenticationStatus)
  | again (sid : UInt32) (auth : AuthenticationStatus)
  | asked (a : Asking)
  | answered (a : Asking)
  | failed (fd : ℕ) (generation : UInt32) (nod : Option UInt32)

namespace Client

def pending : Client → Option ℕ
  | connecting fd _ _ => some fd
  | _ => none

def node : Client → Option UInt32
  | again sid _ => some sid
  | _ => none

def reply : Client → Option Asking
  | answered a => some a
  | _ => none

end Client

/-- What a connection has reached by its own messages: the level, the node, and the highest level so far. -/
structure Peer where
  auth : AuthenticationStatus
  sid : UInt32
  reached : AuthenticationStatus
  auth_le : auth.code ≤ reached.code

namespace Peer

def new (sid : UInt32) : Peer := ⟨.none, sid, .none, le_rfl⟩

def setAuth (p : Peer) (auth : AuthenticationStatus) : Peer where
  auth := auth
  sid := p.sid
  reached := if p.reached.code < auth.code then auth else p.reached
  auth_le := by
    split_ifs with h
    · exact le_rfl
    · exact not_lt.mp h

end Peer

structure State (ι : Type) where
  thisNode : UInt32
  fds : ℕ → FdData
  nodes : UInt32 → Node
  workers : ι → Worker
  clients : ι → Client
  opened : ℕ
  peers : ℕ → Peer

inductive Event (ι : Type)
  | accept (fd : ℕ)
  | connected (fd : ℕ)
  | close (fd : ℕ)
  | dispatch (fd : ℕ) (i : ι) (dc : DC)
  | check (i : ι)
  | serve (i : ι)
  /-- The first section of `zfs_proc_auth_stage1_server`, with the node that `node_lookup_name` has found. -/
  | authStage1 (i : ι) (nod : Option UInt32)
  | authStage2 (i : ι) (found : Bool)
  | reject (i : ι)
  | nodeConnect (i : ι) (fd : ℕ) (nod : UInt32) (auth : AuthenticationStatus)
  | addFdToActive (i : ι)
  | authenticate (i : ι) (nod : UInt32) (auth : AuthenticationStatus)
  | again (i : ι) (found : Bool)
  | reply (i : ι)
  | noReply (i : ι)
  /-- `node_authenticate` after a reply: the node that was found, and whether the speed is to be measured again. -/
  | proceed (i : ι) (nod : Option UInt32) (more : Bool)
  | fail (i : ι)

namespace State

variable {ι : Type} [DecidableEq ι] (s : State ι)

def setFd (fd : ℕ) (data : FdData) : State ι := { s with fds := Function.update s.fds fd data }

def setNode (nod : UInt32) (n : Node) : State ι := { s with nodes := Function.update s.nodes nod n }

def setWorker (i : ι) (w : Worker) : State ι := { s with workers := Function.update s.workers i w }

def setClient (i : ι) (c : Client) : State ι := { s with clients := Function.update s.clients i c }

def setPeer (connection : Option ℕ) (f : Peer → Peer) : State ι :=
  match connection with
  | some c => { s with peers := Function.update s.peers c (f (s.peers c)) }
  | none => s

def initFdData (fd : ℕ) (sid : UInt32) : State ι :=
  { s with
    fds := Function.update s.fds fd ((s.fds fd).init s.opened)
    opened := s.opened + 1
    peers := Function.update s.peers s.opened (Peer.new sid) }

def closeNetworkFd : Option ℕ → State ι
  | some fd => s.setFd fd { s.fds fd with close := true }
  -- the record before the first one
  | none => s

def closeActiveFd (fd : ℕ) : State ι := s.setFd fd (s.fds fd).closed

/-- The field `fd` of the record for `fd`. -/
def descriptor (fd : ℕ) : Option ℕ := if (s.fds fd).connection = none then none else some fd

def updateNodeFd (nod : UInt32) (fd : Option ℕ) (generation : UInt32) (activeOpen : Bool) : State ι :=
  let n := s.nodes nod
  match n.fd.filter fun old => n.generation = (s.fds old).generation with
  | none => s.setNode nod ⟨fd, generation⟩
  | some old =>
    if fd = some old then s.setNode nod ⟨fd, generation⟩
    else if (if activeOpen then nod < s.thisNode else s.thisNode < nod) then
      (s.closeNetworkFd (some old)).setNode nod ⟨fd, generation⟩
    else s.closeNetworkFd fd

/-- `node_has_valid_fd`: the descriptor, if it is valid. -/
def nodeFd (nod : UInt32) : Option ℕ :=
  let n := s.nodes nod
  n.fd.filter fun fd => n.generation = (s.fds fd).generation ∧ (s.fds fd).close = false

def nodeHasValidFd (nod : UInt32) : State ι :=
  if s.nodeFd nod = none then s.setNode nod { s.nodes nod with fd := none } else s

def ask (i : ι) (question : Question) (fd : ℕ) (sid : UInt32) (auth : AuthenticationStatus)
    (generation : UInt32) : State ι :=
  s.setClient i (.asked ⟨question, fd, generation, sid, auth, (s.fds fd).connection⟩)

def setAuth (fd : ℕ) (auth : AuthenticationStatus) (connection : Option ℕ) : State ι :=
  (s.setFd fd { s.fds fd with auth := auth }).setPeer connection (·.setAuth auth)

/-! ## Handlers -/

def authStage1 (r : Request) (nod : UInt32) : State ι :=
  let s := (s.setFd r.fdData { s.fds r.fdData with sid := nod, auth := .stage1 }).setPeer (some r.connection)
    fun p => { p with sid := nod }.setAuth .stage1
  s.updateNodeFd nod (s.descriptor r.fdData) (s.fds r.fdData).generation false

def authStage2 (r : Request) : State ι :=
  let s := s.setAuth r.fdData .finished (some r.connection)
  s.setFd r.fdData { s.fds r.fdData with conn := .established }

def reject (r : Request) : State ι :=
  if (s.fds r.fdData).connection ≠ none ∧ (s.fds r.fdData).generation = r.generation then
    s.closeNetworkFd (some r.fdData)
  else s

/-! ## `node_authenticate` -/

/-- From `again` on, for a node with a valid descriptor; `none` is an abort. -/
def nodeAuthenticate (i : ι) (fd : ℕ) (sid : UInt32) (auth : AuthenticationStatus) : Option (State ι) :=
  let data := s.fds fd
  let generation := (s.nodes sid).generation
  match data.conn with
  | .none => none
  | .connecting | .passive => some s
  | .established => some (s.setClient i .idle)
  | .active =>
    if auth.code ≤ data.auth.code then some (s.setClient i .idle)
    else
      match data.auth with
      | .none => some ((s.setAuth fd .q1 data.connection).ask i .stage1 fd sid auth generation)
      | .stage1 => some ((s.setAuth fd .q3 data.connection).ask i .ping fd sid auth generation)
      | .q1 | .q3 => some s
      | .finished => some (s.setClient i .idle)

def authenticated (i : ι) (a : Asking) (more : Bool) : State ι :=
  match a.question with
  | .stage1 => (s.setAuth a.fd .stage1 a.connection).setClient i (.again a.sid a.auth)
  | .ping => s.ask i (if more then .ping else .stage2) a.fd a.sid a.auth a.generation
  | .stage2 =>
    let s := s.setAuth a.fd .finished a.connection
    (s.setFd a.fd { s.fds a.fd with conn := .established }).setClient i (.again a.sid a.auth)

def proceed (i : ι) (a : Asking) (nod : UInt32) (more : Bool) : State ι :=
  -- `node_measure_connection_speed` has variables of its own
  let failed : Client :=
    if a.question = .ping then .failed a.fd a.generation none else .failed a.fd (s.nodes nod).generation (some nod)
  match s.nodeFd nod with
  | none => (s.nodeHasValidFd nod).setClient i failed
  | some fd =>
    if nod ≠ a.sid then s.setClient i failed
    else if a.fd ≠ fd then s.setClient i (.again a.sid a.auth)
    else s.authenticated i a more

def step : Event ι → Option (State ι)
  | .accept fd =>
    if (s.fds fd).isOpen then none
    else
      let s := s.initFdData fd 0
      some (s.setFd fd { s.fds fd with conn := .passive })
  | .connected fd =>
    if (s.fds fd).connection ≠ none ∧ (s.fds fd).conn = .connecting then
      some (s.setFd fd { s.fds fd with conn := .active })
    else none
  | .close fd => if (s.fds fd).connection ≠ none then some (s.closeActiveFd fd) else none
  | .dispatch fd i dc =>
    match s.workers i, (s.fds fd).connection, decodeDirection dc with
    | .idle, some c, (some dir, dc) =>
      if dir = .reply ∨ (s.fds fd).conn = .connecting then none
      else some (s.setWorker i (.received ⟨fd, (s.fds fd).generation, (s.fds fd).sid, dir, dc, c⟩))
    | _, _, _ => none
  | .check i =>
    match s.workers i with
    | .received r =>
      match networkWorker r.dir r.dc (s.fds r.fdData).auth with
      | .run proc => some (s.setWorker i (.serving r proc))
      | _ => some (s.setWorker i .idle)
    | _ => none
  | .serve i =>
    match s.workers i with
    | .serving _ proc => if proc = .authStage1 ∨ proc = .authStage2 then none else some (s.setWorker i .idle)
    | _ => none
  | .authStage1 i nod =>
    match s.workers i with
    | .serving r .authStage1 =>
      match nod with
      | some nod => some ((s.authStage1 r nod).setWorker i .idle)
      | none => some (s.setWorker i (.rejecting r))
    | _ => none
  | .authStage2 i found =>
    match s.workers i with
    | .serving r .authStage2 =>
      if found then some ((s.authStage2 r).setWorker i .idle) else some (s.setWorker i (.rejecting r))
    | _ => none
  | .reject i =>
    match s.workers i with
    | .rejecting r => some ((s.reject r).setWorker i .idle)
    | _ => none
  | .nodeConnect i fd nod auth =>
    match s.clients i with
    | .idle =>
      if (s.fds fd).isOpen = true ∨ s.nodeFd nod ≠ none then none
      else
        let s := s.nodeHasValidFd nod
        let data := { s.fds fd with conn := .connecting, auth := .none, sid := nod, isOpen := true }
        some ((s.setFd fd data).setClient i (.connecting fd nod auth))
    | _ => none
  | .addFdToActive i =>
    match s.clients i with
    | .connecting fd nod auth =>
      let s := s.initFdData fd nod
      some ((s.updateNodeFd nod (some fd) (s.fds fd).generation true).setClient i (.again nod auth))
    | _ => none
  | .authenticate i nod auth =>
    match s.clients i with
    | .idle => if s.nodeFd nod = none then none else some (s.setClient i (.again nod auth))
    | _ => none
  | .again i found =>
    match s.clients i with
    | .again sid auth =>
      match if found then s.nodeFd sid else none with
      | some fd => s.nodeAuthenticate i fd sid auth
      | none => some ((if found then s.nodeHasValidFd sid else s).setClient i .idle)
    | _ => none
  | .reply i =>
    match s.clients i with
    | .asked a =>
      if a.connection ≠ none ∧ (s.fds a.fd).connection = a.connection then some (s.setClient i (.answered a)) else none
    | _ => none
  | .noReply i =>
    match s.clients i with
    | .asked a => some (s.setClient i (.failed a.fd a.generation none))
    | _ => none
  | .proceed i nod more =>
    match s.clients i with
    | .answered a =>
      match nod with
      | none => some (s.setClient i (.failed a.fd a.generation none))
      | some nod =>
        -- only the reply of the first stage has a name of a node
        if a.question ≠ .stage1 ∧ nod ≠ a.sid then none else some (s.proceed i a nod more)
    | _ => none
  | .fail i =>
    match s.clients i with
    | .failed fd generation nod =>
      let s := if (s.fds fd).generation = generation then s.closeNetworkFd (some fd) else s
      let s := match nod with
        | some nod => s.setNode nod { s.nodes nod with fd := none }
        | none => s
      some (s.setClient i .idle)
    | _ => none

def start (thisNode : UInt32) : State ι where
  thisNode := thisNode
  fds _ := ⟨0, .none, .none, 0, false, false, none⟩
  nodes _ := ⟨none, 0⟩
  workers _ := .idle
  clients _ := .idle
  opened := 0
  peers _ := Peer.new 0

/-! ## What the levels are for -/

/-- A record has the level and the node that the messages of its connection have given to it, and a handler runs only
for a connection that has reached the level the handler needs. -/
structure Separate (s : State ι) : Prop where
  own : ∀ fd c, (s.fds fd).connection = some c →
    (s.fds fd).auth = (s.peers c).auth ∧ (s.fds fd).sid = (s.peers c).sid
  served : ∀ i r proc, s.workers i = .serving r proc → proc.auth.code ≤ (s.peers r.connection).reached.code

/-- The record was not used again when the level of a request is compared. When the level changes by a message, the
connection is the one of the message. When a node has the generation of a record, the record has a connection. -/
def AuthSafe (s : State ι) : Event ι → Prop
  | .check i => ∀ r ∈ (s.workers i).waiting, ∀ c ∈ (s.fds r.fdData).connection, c = r.connection
  | .authStage1 i (some _) | .authStage2 i true =>
    ∀ r ∈ (s.workers i).handled, (s.fds r.fdData).connection = some r.connection
  | .again i true => ∀ sid ∈ (s.clients i).node, ∀ fd ∈ s.nodeFd sid, (s.fds fd).connection ≠ none
  | .proceed i (some _) _ =>
    ∀ a ∈ (s.clients i).reply, a.question ≠ .ping → (s.fds a.fd).connection = a.connection
  | _ => True

instance (s : State ι) : DecidablePred s.AuthSafe
  | .check i => Option.decidableForallMem (s.workers i).waiting
  | .authStage1 i (some _) | .authStage2 i true => Option.decidableForallMem (s.workers i).handled
  | .again i true => Option.decidableForallMem (s.clients i).node
  | .proceed i (some _) _ => Option.decidableForallMem (s.clients i).reply
  | .authStage1 _ none | .authStage2 _ false | .again _ false | .proceed _ none _ | .accept _ | .connected _ | .close _
  | .dispatch _ _ _ | .serve _ | .reject _ | .nodeConnect _ _ _ _ | .addFdToActive _ | .authenticate _ _ _ | .reply _
  | .noReply _ | .fail _ => isTrue trivial

end State

end ZFS.Network
