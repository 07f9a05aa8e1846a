import ZlomekFS.Lib.Runs
import ZlomekFS.Lib.Threads

/-! The lock of a file handle: `internal_dentry_lock`, `internal_dentry_unlock` and what destroys dentries in
`fs-entities/handle/fh.c`, `internal_cap_lock` in `fs-entities/cap/cap.c`. The state is what is in memory for
one `zfs_fh`, and the threads; the steps are the sections of the code in which `fh->mutex` is held. A thread
that waits may wake up at any time, as POSIX allows. -/

namespace ZFS.Locking

/-! ## `struct internal_fh_def` and `struct internal_dentry_def` -/

def LEVEL_UNLOCKED : ℕ := 0

def LEVEL_SHARED : ℕ := 1

def LEVEL_EXCLUSIVE : ℕ := 2

structure InternalFh where
  level : ℕ
  users : UInt32
  id2assign : UInt32
  id2run : UInt32
  deriving DecidableEq, Repr

structure InternalDentry where
  fh : ℕ
  parent : ℕ
  name : String
  users : UInt32
  deleted : Bool
  deriving DecidableEq, Repr

namespace InternalFh

def shouldWaitForLocked (fh : InternalFh) (newLevel : ℕ) : Bool :=
  if fh.level = LEVEL_UNLOCKED then false
  else if fh.level = LEVEL_SHARED then
    -- shared access is switched off in the source
    if newLevel = LEVEL_SHARED then true else true
  else true

def lock (fh : InternalFh) (level : ℕ) : InternalFh :=
  { fh with level := level, users := fh.users + 1, id2run := fh.id2run + 1 }

def unlock (fh : InternalFh) : InternalFh :=
  { fh with users := fh.users - 1, level := if fh.users - 1 = 0 then LEVEL_UNLOCKED else fh.level }

end InternalFh

/-! ## The two functions that lock -/

inductive LockFunction
  | dentry
  | cap
  deriving DecidableEq, Repr

namespace LockFunction

def waitForLocked (f : LockFunction) (fh : InternalFh) (level : ℕ) : Bool :=
  match f with
  | .dentry => fh.shouldWaitForLocked level
  | .cap => LEVEL_EXCLUSIVE < fh.level + level

def waits (f : LockFunction) (fh : InternalFh) (dentry : InternalDentry) (level : ℕ) (id : UInt32) : Bool :=
  match f with
  | .dentry => !dentry.deleted && fh.shouldWaitForLocked level
  | .cap => !dentry.deleted && (fh.id2run != id || LEVEL_EXCLUSIVE < fh.level + level)

end LockFunction

inductive Position
  | outside
  | waiting (f : LockFunction) (level fh dentry : ℕ) (id : UInt32)
  /-- After the loop, the mutexes are unlocked and the handle is to be looked up again. -/
  | lookingUp (f : LockFunction) (level fh : ℕ) (id : UInt32)
  | holding (level fh dentry : ℕ)
  deriving DecidableEq, Repr

namespace Position

def holds (fh : ℕ) : Position → Bool
  | .holding _ k _ => k = fh
  | _ => false

/-- The thread took a ticket and has neither locked the handle nor left with an error. -/
def pending (fh : ℕ) : Position → Bool
  | .waiting _ _ k _ _ => k = fh
  | .lookingUp _ _ k _ => k = fh
  | _ => false

end Position

/-! ## The handle and its threads -/

structure State (ι : Type) where
  fhs : ℕ → InternalFh
  fh : ℕ
  dentries : ℕ → InternalDentry
  ndentries : ℕ
  /-- The cyclic chain of dentries in `dentry_htab`, the one in the slot first; with the last of them the
  internal file handle is destroyed. -/
  chain : List ℕ
  position : ι → Position
  owned : ι → List ℕ

/-- What may happen next; `i` is the thread. A thread that locks the handle twice counts as two. -/
inductive Event (ι : Type)
  | create (i : ι) (level parent : ℕ) (name : String)
  | move (d parent : ℕ) (name : String)
  | disown (i : ι) (d : ℕ)
  | delete (d : ℕ)
  | remove (d : ℕ)
  | lock (i : ι) (f : LockFunction) (level d : ℕ)
  | wake (i : ι)
  /-- `zfs_fh_lookup_nolock` or `find_capability_nolock` after the loop, and the rest of the function. The
  lookup may fail for other reasons: the volume is being deleted, its master is not connected, the capability
  is gone. -/
  | lookup (i : ι) (found : Bool)
  | unlock (i : ι) (d : ℕ)

namespace State

variable {ι : Type} [DecidableEq ι] (s : State ι)

def handle : InternalFh := s.fhs s.fh

def acquire (i : ι) (level d : ℕ) : State ι :=
  let dentry := s.dentries d
  { s with
    fhs := Function.update s.fhs dentry.fh ((s.fhs dentry.fh).lock level)
    dentries := Function.update s.dentries d { dentry with users := dentry.users + 1 }
    position := Function.update s.position i (.holding level dentry.fh d)
    owned := Function.update s.owned i (d :: s.owned i) }

def release (i : ι) (d : ℕ) (position : Position) : State ι :=
  let dentry := s.dentries d
  { s with
    fhs := Function.update s.fhs dentry.fh (s.fhs dentry.fh).unlock
    dentries := Function.update s.dentries d { dentry with users := dentry.users - 1 }
    position := Function.update s.position i position
    owned := Function.update s.owned i ((s.owned i).erase d) }

def lock (i : ι) (f : LockFunction) (level d : ℕ) : State ι :=
  let k := (s.dentries d).fh
  let id := (s.fhs k).id2assign
  let s := { s with fhs := Function.update s.fhs k { s.fhs k with id2assign := id + 1 } }
  if f.waitForLocked (s.fhs k) level then
    { s with position := Function.update s.position i (.waiting f level k d id) }
  else s.acquire i level d

def create (i : ι) (level parent : ℕ) (name : String) : State ι :=
  match s.chain with
  | [] =>
    let fh := s.fh + 1
    let d := s.ndentries
    let users := if level ≠ LEVEL_UNLOCKED then 1 else 0
    let s := { s with
      fhs := Function.update s.fhs fh ⟨level, users, 0, 0⟩
      fh := fh
      dentries := Function.update s.dentries d ⟨fh, parent, name, users, false⟩
      ndentries := d + 1
      chain := [d] }
    if level ≠ LEVEL_UNLOCKED then
      { s with
        position := Function.update s.position i (.holding level fh d)
        owned := Function.update s.owned i (d :: s.owned i) }
    else s
  | old :: rest =>
    { s with
      dentries := Function.update s.dentries s.ndentries ⟨s.fh, parent, name, 0, false⟩
      ndentries := s.ndentries + 1
      chain := s.ndentries :: rest ++ [old] }

def remove (d : ℕ) : State ι :=
  let n := s.chain.idxOf d
  { s with chain := s.chain.drop (n + 1) ++ s.chain.take n }

def step : Event ι → Option (State ι)
  | .create i level parent name =>
    if s.position i = .outside ∧ level ≤ LEVEL_EXCLUSIVE then some (s.create i level parent name) else none
  | .move d parent name =>
    if d ∈ s.chain then
      some { s with dentries := Function.update s.dentries d { s.dentries d with parent := parent, name := name } }
    else none
  | .disown i d =>
    if d ∈ s.chain ∧ d ∈ s.owned i then
      match s.position i with
      | .outside => some (s.release i d .outside)
      | .holding level k d' => some (s.release i d (if d' = d then .outside else .holding level k d'))
      | _ => none
    else none
  | .delete d =>
    if d ∈ s.chain ∧ (s.dentries d).users = 0 ∧ (s.dentries d).deleted = false then
      some { s with dentries := Function.update s.dentries d { s.dentries d with deleted := true } }
    else none
  | .remove d => if d ∈ s.chain ∧ (s.dentries d).deleted = true then some (s.remove d) else none
  | .lock i f level d =>
    if s.position i = .outside ∧ d ∈ s.chain ∧ (level = LEVEL_SHARED ∨ level = LEVEL_EXCLUSIVE) then
      some (s.lock i f level d)
    else none
  | .wake i =>
    match s.position i with
    | .waiting f level k d id =>
      if f.waits (s.fhs k) (s.dentries d) level id then none
      else some { s with position := Function.update s.position i (.lookingUp f level k id) }
    | _ => none
  | .lookup i found =>
    match s.position i with
    | .lookingUp _ level _ _ =>
      match s.chain, found with
      | d :: _, true => some (s.acquire i level d)
      | _, _ => some { s with position := Function.update s.position i .outside }
    | _ => none
  | .unlock i d =>
    match s.position i with
    | .holding _ _ _ => if d ∈ s.chain then some (s.release i d .outside) else none
    | _ => none

end State

def State.start (ι : Type) : State ι where
  fhs _ := ⟨LEVEL_UNLOCKED, 0, 0, 0⟩
  fh := 0
  dentries _ := ⟨0, 0, "", 0, false⟩
  ndentries := 0
  chain := []
  position _ := .outside
  owned _ := []

/-! ## What the lock is for -/

namespace State

variable {ι : Type} [Fintype ι]

/-- Nobody holds the handle, or any number of threads shared, or one thread alone; a handle that is held is
not destroyed. -/
structure Excludes (s : State ι) : Prop where
  exclusive : ∀ i j level level' k k' d d', i ≠ j → s.position i = .holding level k d →
    s.position j = .holding level' k' d' → level = LEVEL_SHARED ∧ level' = LEVEL_SHARED
  held : ∀ i level k d, s.position i = .holding level k d → k = s.fh ∧ s.chain ≠ []
  users : s.chain ≠ [] → s.handle.users.toNat = Threads.count (Position.holds s.fh) s.position
  unlocked : s.chain ≠ [] →
    (s.handle.level = LEVEL_UNLOCKED ↔ Threads.count (Position.holds s.fh) s.position = 0)

/-- The step does not break the lock. What nothing in the code prevents: another thread has locked the handle
since the loop around `zfsd_cond_wait` was left; the thread has unlocked the handle through another dentry and
still owns this one; the handle was locked while its last dentry was being destroyed. -/
def LockSafe (s : State ι) : Event ι → Prop
  | .lock _ f level _ => f.waitForLocked s.handle level = true ∨ s.handle.users.toNat + 1 < 2 ^ 32
  | .lookup i found =>
    match s.position i with
    | .lookingUp _ level _ _ => found = true → s.chain ≠ [] →
      s.handle.level + level ≤ LEVEL_EXCLUSIVE ∧ s.handle.users.toNat + 1 < 2 ^ 32
    | _ => True
  | .disown i d => ∃ level k, s.position i = .holding level k d
  | .remove d => s.chain = [d] → s.handle.users = 0
  | _ => True

/-- The thread is in the loop of `internal_cap_lock`, until `id2run` reaches its ticket. -/
def AwaitsTurn (s : State ι) (i : ι) (id : UInt32) : Prop :=
  ∃ level d, s.position i = .waiting .cap level s.fh d id ∧ (s.dentries d).deleted = false

/-- The tickets between `id2run` and `id2assign` are those of the threads that still want the lock, and the
turn of a thread that waits for its turn is still to come. -/
structure InTurn (s : State ι) : Prop where
  pending : s.chain ≠ [] →
    (s.handle.id2assign - s.handle.id2run).toNat = Threads.count (Position.pending s.fh) s.position
  turn : s.chain ≠ [] → ∀ i id, s.AwaitsTurn i id →
    (id - s.handle.id2run).toNat < (s.handle.id2assign - s.handle.id2run).toNat
  idle : s.chain ≠ [] → (∀ i, (s.position i).pending s.fh = false) → s.handle.id2run = s.handle.id2assign

/-- The step does not lose a ticket. What nothing in the code prevents: a thread locks the handle in the turn of
another one; a thread leaves with an error; it finds another internal file handle than it has a ticket of. -/
def TicketSafe (s : State ι) : Event ι → Prop
  | .lock _ f level _ =>
    if f.waitForLocked s.handle level then (s.handle.id2assign - s.handle.id2run).toNat + 1 < 2 ^ 32
    else ∀ j, ¬ s.AwaitsTurn j s.handle.id2run
  | .lookup i found =>
    match s.position i with
    | .lookingUp _ _ k _ => s.chain ≠ [] →
      if found then k = s.fh ∧ ∀ j, ¬ s.AwaitsTurn j s.handle.id2run else k ≠ s.fh
    | _ => True
  | _ => True

end State

end ZFS.Locking
