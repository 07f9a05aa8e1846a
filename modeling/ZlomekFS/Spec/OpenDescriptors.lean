import Mathlib.Data.List.ReduceOption
import Mathlib.Tactic

/-! Opening files with a bounded cache of descriptors: `safe_open` in `fs-entities/file/file.c` and `open_metadata` in
`fs-entities/metadata/metadata.c`. -/

namespace ZFS.Descriptors

/-- What `open` does; `failed` is every error but `EMFILE`. -/
inductive Outcome
  | opened | emfile | failed
  deriving DecidableEq, Repr

/-- The open descriptors of the process and the heap of those that are cached, the one unused for the longest time
first; `none` is a record whose descriptor was closed. -/
structure Cache where
  fds : Finset ℕ
  heap : List (Option ℕ)
  cached : ∀ fd ∈ heap.reduceOption, fd ∈ fds
  nodup : heap.reduceOption.Nodup

/-- The descriptor that `open` returns is the lowest one that is not open. -/
def lowest (fds : Finset ℕ) : ℕ := Nat.find (Infinite.exists_notMem_finset fds)

/-- `open`: the descriptor, and those that are open then. -/
def Outcome.apply (fds : Finset ℕ) : Outcome → Option ℕ × Finset ℕ
  | .opened => (some (lowest fds), insert (lowest fds) fds)
  | _ => (none, fds)

def Outcome.evicts (max size : ℕ) : Outcome → Prop
  | .emfile => True
  | .opened => max ≤ size
  | .failed => False

instance (max size : ℕ) : DecidablePred (Outcome.evicts max size)
  | .emfile => isTrue trivial
  | .opened => inferInstanceAs (Decidable (_ ≤ _))
  | .failed => isFalse not_false

structure Result where
  fd : Option ℕ
  fds : Finset ℕ
  heap : List (Option ℕ)
  calls : ℕ

def closeFd (fds : Finset ℕ) : Option ℕ → Finset ℕ
  | some fd => fds.erase fd
  | none => fds

/-- The loop of both functions from the `n`-th call of `open` on; nothing is evicted from an empty heap. -/
def retryOpen (max : ℕ) (pattern : ℕ → Outcome) : List (Option ℕ) → Finset ℕ → ℕ → Result
  | [], fds, n => ⟨((pattern n).apply fds).1, ((pattern n).apply fds).2, [], n + 1⟩
  | fdData :: heap, fds, n =>
    if (pattern n).evicts max (heap.length + 1) then
      retryOpen max pattern heap (closeFd ((pattern n).apply fds).2 fdData) (n + 1)
    else ⟨((pattern n).apply fds).1, ((pattern n).apply fds).2, fdData :: heap, n + 1⟩

def safeOpen (maxLocalFds : ℕ) (opened : Cache) (pattern : ℕ → Outcome) : Result :=
  retryOpen maxLocalFds pattern opened.heap opened.fds 0

def openMetadata (maxMetadataFds : ℕ) (metadata : Cache) (pattern : ℕ → Outcome) : Result :=
  retryOpen maxMetadataFds pattern metadata.heap metadata.fds 0

/-- The open descriptors are the previous ones without those that were evicted, and the one that is returned. -/
def Accounted (heap : List (Option ℕ)) (fds : Finset ℕ) (r : Result) : Prop :=
  r.fds = (fds \ (heap.reduceOption.toFinset \ r.heap.reduceOption.toFinset)) ∪ r.fd.toFinset

/-- The first call of `open` that does not fail with `EMFILE` does not open a file while the cache is full. -/
def Roomy (max : ℕ) (pattern : ℕ → Outcome) (size : ℕ) : Prop :=
  ∀ k < size, (∀ j < k, pattern j = .emfile) → pattern k = .opened → size - k < max

end ZFS.Descriptors
