import ZlomekFS.Lib.Mutexes

/-! What `update_file` of `update/update.c` takes and gives back on each of its paths. The functions it calls give back
the mutexes of nodes and connections that they take, and `refresh_fh`, `reintegrate_file_blocks` and
`update_file_blocks` give back everything. A file that is locked is there when it is looked up again, as the checks
in the source say. -/

namespace ZFS.Updating
open Mutexes

/-- Mutexes, and what is taken and given back like one: the lock of the file, the capability, the file that is open on
the master and the loaded trees. -/
inductive Resource
  | fhMutex
  | vol
  | dentry
  | updateQueue
  | updateSlowQueue
  | pendingSlowReqs
  | fhLock
  | capability
  | remote
  | trees
  deriving DecidableEq, Repr

open Resource

inductive Lookup
  | found
  | noVolume
  | deleted
  | stale
  deriving DecidableEq, Repr

inductive ConnectionSpeed
  | none
  | slow
  | fast
  deriving DecidableEq, Repr

structure Outcome where
  lookup : Lookup
  refreshed : Bool
  lookupAgain : Lookup
  cached : Bool
  /-- How the file was found after waiting for it, if it was locked. -/
  waited : Option Lookup
  /-- `IFH_UPDATE` and `IFH_REINTEGRATE`, unless the file has no handle on the master. -/
  what : Option (Bool × Bool)
  regular : Bool
  speed : ConnectionSpeed
  slowWorker : Bool
  pendingSlow : Bool
  getCapability : Bool
  masterBusy : Bool
  remoteOpen : Bool
  loaded : Bool
  reintegrated : Bool
  whatAgain : Option Bool
  /-- What `local_setattr` returned, if the size had to be changed. -/
  setattr : Option Bool
  incomplete : Bool
  lastBusy : Bool

def zfsFhLookupNolock : Lookup → List (Op Resource)
  | .found => [.lock fhMutex, .lock vol, .lock dentry]
  | .noVolume => [.lock fhMutex, .unlock fhMutex]
  | .deleted | .stale => [.lock fhMutex, .lock vol, .unlock vol, .unlock fhMutex]

def zfsFhLookup (l : Lookup) : List (Op Resource) :=
  zfsFhLookupNolock l ++ if l = .found then [.unlock fhMutex] else []

def release : List (Op Resource) := [.unlock dentry, .unlock vol, .unlock fhMutex]

/-- `remote_getattr`, `remote_open` and `remote_close` after `fh_mutex` is unlocked, and the lookup after them. -/
def remoteCall : List (Op Resource) :=
  [.unlock fhMutex, .unlock dentry, .unlock vol] ++ zfsFhLookupNolock .found

def updateP (masterFh : Bool) : List (Op Resource) := if masterFh then remoteCall else []

def internalDentryLock : Option Lookup → List (Op Resource)
  | none => [.lock fhLock, .unlock dentry, .unlock vol] ++ zfsFhLookupNolock .found
  | some l => [.unlock vol, .unlock dentry] ++ zfsFhLookupNolock l ++ if l = .found then [.lock fhLock] else []

def internalDentryUnlock : List (Op Resource) := [.unlock vol, .unlock fhLock, .unlock dentry, .unlock fhMutex]

def condRemoteClose (lastBusy : Bool) : List (Op Resource) := (if lastBusy then remoteCall else []) ++ [.unlock remote]

def truncateLocalFile : Option Bool → List (Op Resource)
  | none => [.unlock fhMutex]
  | some ok => release ++ if ok then zfsFhLookup .found else []

/-- The end of `update_file`; the file may be put into the slow or the other queue. -/
def out : Option Bool → List (Op Resource)
  | none => internalDentryUnlock
  | some true => internalDentryUnlock ++ [.lock updateSlowQueue, .unlock updateSlowQueue]
  | some false => internalDentryUnlock ++ [.lock updateQueue, .unlock updateQueue]

def transfer (what : Bool × Bool) (reintegrated : Bool) (whatAgain setattr : Option Bool) : List (Op Resource) :=
  (if what.2 then release ++ zfsFhLookupNolock .found ++ if reintegrated then updateP whatAgain.isSome else []
  else []) ++
  if (if what.2 then reintegrated && whatAgain.getD false else what.1) then
    truncateLocalFile setattr ++ (if setattr = some false then [] else [.unlock vol, .unlock dentry]) ++
      zfsFhLookupNolock .found
  else []

def withCapability (slow : Bool) (o : Outcome) : List (Op Resource) :=
  (if o.masterBusy then [] else remoteCall) ++
  if o.masterBusy = false ∧ o.remoteOpen = false then [.unlock capability] ++ out none
  else
    [.lock remote] ++
    (if o.loaded then
      [.lock trees] ++ transfer (o.what.getD (false, false)) o.reintegrated o.whatAgain o.setattr ++ [.unlock trees]
    else release ++ zfsFhLookupNolock .found) ++
    (condRemoteClose o.lastBusy ++ [.unlock capability] ++
      out (if o.loaded && o.incomplete then some slow else none))

def withConnection (slow : Bool) (o : Outcome) : List (Op Resource) :=
  if o.what.getD (false, false) = (false, false) then out none
  else
    (if slow then [.lock pendingSlowReqs, .unlock pendingSlowReqs] else []) ++
    if slow && o.pendingSlow then out (some slow)
    else
      [.unlock dentry, .unlock fhMutex, .unlock vol] ++ zfsFhLookupNolock .found ++
      if o.getCapability then [.lock capability] ++ withCapability slow o
      -- what is found and put then is the capability of somebody else
      else [.unlock capability] ++ out none

def withLock (slowthread : Bool) (o : Outcome) : List (Op Resource) :=
  updateP o.what.isSome ++
  if o.regular = false then out none
  else
    match o.speed with
    | .none => [.unlock vol] ++ out none
    | .slow =>
      (if slowthread then [] else [.lock updateSlowQueue, .unlock updateSlowQueue]) ++
      if slowthread = false ∧ o.slowWorker = true then out (some true) else withConnection true o
    | .fast => if slowthread then out (some false) else withConnection false o

def withDentry (slowthread : Bool) (o : Outcome) : List (Op Resource) :=
  if o.cached = false then [.unlock dentry, .unlock vol]
  else internalDentryLock o.waited ++ if o.waited.getD .found = .found then withLock slowthread o else []

def updateFile (slowthread : Bool) (o : Outcome) : List (Op Resource) :=
  zfsFhLookup o.lookup ++
  if o.lookup = .stale ∧ o.refreshed = true then
    zfsFhLookup o.lookupAgain ++ if o.lookupAgain = .found then withDentry slowthread o else []
  else if o.lookup = .found then withDentry slowthread o else []

def Outcome.Locks (o : Outcome) : Prop :=
  (o.lookup = .found ∨ o.lookup = .stale ∧ o.refreshed = true ∧ o.lookupAgain = .found) ∧ o.cached = true ∧
    o.waited.getD .found = .found

/-- The function comes to `get_capability` if the file is locked. -/
def Outcome.Gets (slowthread : Bool) (o : Outcome) : Prop :=
  o.what.getD (false, false) ≠ (false, false) ∧
  match o.speed with
  | .none => False
  | .slow => (slowthread = false → o.slowWorker = false) ∧ o.pendingSlow = false
  | .fast => slowthread = false

/-- A regular file that is locked has a master that is connected, and it gets the capability it asks for. -/
def Outcome.Served (slowthread : Bool) (o : Outcome) : Prop :=
  o.Locks → o.regular = true → o.speed ≠ .none ∧ (o.Gets slowthread → o.getCapability = true)

end ZFS.Updating
