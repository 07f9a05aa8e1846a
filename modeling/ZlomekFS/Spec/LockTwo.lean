import ZlomekFS.Spec.HandleLock
import ZlomekFS.Spec.Synchronize

/-! `internal_dentry_lock2` in `fs-entities/handle/fh.c`: any number of threads that lock two handles each. A handle
is unlocked when none of the threads holds it any more: `fh->users` is not taken modulo 2^32, as it is in `HandleLock`,
which has the tickets and dentries too. -/

namespace ZFS.Locking.Two

structure Task where
  fh1 : ZfsFh
  fh2 : ZfsFh
  level1 : ℕ
  level2 : ℕ
  deriving DecidableEq, Repr

namespace Task

variable (t : Task)

def calls : List (ZfsFh × ℕ) :=
  if t.fh1.ino = t.fh2.ino ∧ t.fh1.dev = t.fh2.dev then [(t.fh1, max t.level1 t.level2)]
  else if t.fh1.ino < t.fh2.ino ∨ t.fh1.ino = t.fh2.ino ∧ t.fh1.dev < t.fh2.dev then
    [(t.fh1, t.level1), (t.fh2, t.level2)]
  else [(t.fh2, t.level2), (t.fh1, t.level1)]

def wanted : List (ZfsFh × ℕ) :=
  if t.fh1 = t.fh2 then [(t.fh1, max t.level1 t.level2)] else [(t.fh1, t.level1), (t.fh2, t.level2)]

/-- Two handles of one inode are the same: they have the same generation. -/
def Identified : Prop := t.fh1.ino = t.fh2.ino → t.fh1.dev = t.fh2.dev → t.fh1 = t.fh2

end Task

inductive Position
  | outside
  | locking (t : Task) (todo : List (ZfsFh × ℕ))
  | waiting (t : Task) (x : ZfsFh × ℕ) (todo : List (ZfsFh × ℕ))
  | lookingUp (t : Task) (x : ZfsFh × ℕ) (todo : List (ZfsFh × ℕ))
  | out (t : Task) (todo : List (ZfsFh × ℕ))
  | failed (t : Task)
  | done (t : Task)
  | releasing

structure State (ι : Type) where
  level : ZfsFh → ℕ
  held : ι → List (ZfsFh × ℕ)
  position : ι → Position

inductive Event (ι : Type)
  | call (i : ι) (t : Task)
  | lock (i : ι) (found : Bool)
  /-- The thread wakes up; it also leaves the loop when its dentry was deleted. -/
  | wake (i : ι) (deleted : Bool)
  | lookup (i : ι) (found : Bool)
  | rollback (i : ι)
  | unlock (i : ι) (fh : ZfsFh)
  | leave (i : ι)

namespace State

variable {ι : Type} [DecidableEq ι] [Fintype ι] (s : State ι)

def setPosition (i : ι) (p : Position) : State ι := { s with position := Function.update s.position i p }

def acquire (i : ι) (t : Task) (x : ZfsFh × ℕ) (todo : List (ZfsFh × ℕ)) : State ι where
  level := Function.update s.level x.1 x.2
  held := Function.update s.held i (x :: s.held i)
  position := Function.update s.position i (if todo = [] then .done t else .locking t todo)

def free (i : ι) (fh : ZfsFh) (p : Position) : State ι where
  level := if ∃ j, j ≠ i ∧ fh ∈ (s.held j).map Prod.fst then s.level
    else Function.update s.level fh LEVEL_UNLOCKED
  held := Function.update s.held i ((s.held i).filter fun x => x.1 ≠ fh)
  position := Function.update s.position i p

/-- An error is returned at once if nothing is locked yet. -/
def giveUp (i : ι) (t : Task) (todo : List (ZfsFh × ℕ)) : State ι :=
  s.setPosition i (if s.held i = [] then .failed t else .out t todo)

def step : Event ι → Option (State ι)
  | .call i t =>
    match s.position i with
    | .outside =>
      if (t.level1 = LEVEL_SHARED ∨ t.level1 = LEVEL_EXCLUSIVE) ∧ (t.level2 = LEVEL_SHARED ∨ t.level2 = LEVEL_EXCLUSIVE)
      then some (s.setPosition i (.locking t t.calls)) else none
    | _ => none
  | .lock i found =>
    match s.position i with
    | .locking t (x :: todo) =>
      if s.held i ≠ [] ∧ found = false then some (s.giveUp i t (x :: todo))
      else if s.level x.1 ≠ LEVEL_UNLOCKED then some (s.setPosition i (.waiting t x todo))
      else some (s.acquire i t x todo)
    | _ => none
  | .wake i deleted =>
    match s.position i with
    | .waiting t x todo =>
      if deleted = true ∨ s.level x.1 = LEVEL_UNLOCKED then some (s.setPosition i (.lookingUp t x todo)) else none
    | _ => none
  | .lookup i found =>
    match s.position i with
    | .lookingUp t x todo => some (if found then s.acquire i t x todo else s.giveUp i t (x :: todo))
    | _ => none
  | .rollback i =>
    match s.position i, s.held i with
    | .out t _, x :: _ => some (s.free i x.1 (.failed t))
    | _, _ => none
  | .unlock i fh =>
    match s.position i with
    | .done _ | .releasing => if fh ∈ (s.held i).map Prod.fst then some (s.free i fh .releasing) else none
    | _ => none
  | .leave i =>
    match s.position i with
    | .failed _ | .releasing => if s.held i = [] then some (s.setPosition i .outside) else none
    | _ => none

def start : State ι := ⟨fun _ => LEVEL_UNLOCKED, fun _ => [], fun _ => .outside⟩

def WaitsFor (i j : ι) : Prop :=
  ∃ t x todo, s.position i = .waiting t x todo ∧ x.1 ∈ (s.held j).map Prod.fst

/-- What a caller gets is what it has asked for, or nothing; a handle that is locked has the level that was asked for
and is shared only by threads that have asked for it; nobody waits for itself. -/
structure Good : Prop where
  success : ∀ i t, s.position i = .done t → (s.held i).Perm t.wanted
  failure : ∀ i t, s.position i = .failed t → s.held i = []
  level : ∀ i, ∀ x ∈ s.held i, s.level x.1 = x.2
  shared : ∀ i j, i ≠ j → ∀ x ∈ s.held i, ∀ y ∈ s.held j, x.1 = y.1 → x.2 = LEVEL_SHARED ∧ y.2 = LEVEL_SHARED
  acyclic : ∀ i, ¬ Relation.TransGen s.WaitsFor i i

/-- The last call is for handles that are identified by their inodes, and a thread that has waited locks a handle that
is not locked by others meanwhile. -/
def Safe : Event ι → Prop
  -- there is no lookup before the first call
  | .lock i found => ∀ t x, s.held i = [] ∨ found = true → s.position i = .locking t [x] →
    s.level x.1 = LEVEL_UNLOCKED → t.Identified
  | .lookup i true =>
    ∀ t x todo, s.position i = .lookingUp t x todo →
      s.level x.1 + x.2 ≤ LEVEL_EXCLUSIVE ∧ (todo = [] → t.Identified)
  | _ => True

end State

end ZFS.Locking.Two
