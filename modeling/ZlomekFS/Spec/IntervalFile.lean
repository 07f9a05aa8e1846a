import ZlomekFS.Lib.Bytes
import ZlomekFS.Lib.Runs
import ZlomekFS.Spec.IntervalSplay

/-! The interval files of a regular file, `metadata.c` and the end of `interval.c`. An interval file is
a log to which `append_interval` adds and which `flush_interval_tree` replaces by the intervals of the
tree; a flag in the metadata says whether it means anything. System calls succeed. `none` is an abort,
an interval file that is not aligned, or a loop that does not end. -/

namespace ZFS
open Spans Trees Bytes

def INTERVAL_COUNT : ℕ := 1024

def UINT64_MAX : ℕ := 2 ^ 64 - 1

def INTERVAL_SIZE : ℕ := 16

def intervalBytes (s : Span) : List UInt8 := toLE 8 s.start ++ toLE 8 s.stop

def readInterval : Reader Span := do
  let start ← number 8
  let stop ← number 8
  return ⟨start, stop⟩

/-! ## Reading and writing a tree -/

/-- `interval_tree_read`: the file is read in blocks; the number of intervals is enough fuel. -/
def intervalTreeRead : ℕ → IntervalTreeDef → ℕ → List UInt8 → Option IntervalTreeDef
  | 0, t, n, _ => if n > 0 then none else some t
  | fuel + 1, t, n, fd =>
    if n > 0 then do
      let block := if n > INTERVAL_COUNT then INTERVAL_COUNT else n
      let (intervals, fd) ← bytes (block * INTERVAL_SIZE) fd
      let t ← (readAll readInterval block intervals).foldlM (fun t s => t.insert s.start s.stop) t
      intervalTreeRead fuel t (n - block) fd
    else some t

structure IntervalTreeWriteData where
  fd : List UInt8
  intervals : List Span

def IntervalTreeWriteData.write (data : IntervalTreeWriteData) : IntervalTreeWriteData :=
  ⟨data.fd ++ data.intervals.flatMap intervalBytes, []⟩

def intervalTreeWrite1 : BinaryTree Span → IntervalTreeWriteData → IntervalTreeWriteData
  | .nil, data => data
  | .node node left right, data =>
    let data := intervalTreeWrite1 left data
    let data := { data with intervals := data.intervals ++ [node] }
    let data := if data.intervals.length = INTERVAL_COUNT then data.write else data
    intervalTreeWrite1 right data

def intervalTreeWrite (t : IntervalTreeDef) : List UInt8 :=
  let data := intervalTreeWrite1 t.splay ⟨[], []⟩
  if data.intervals.length > 0 then data.write.fd else data.fd

/-! ## One tree and its file -/

/-- Where the descriptor of a tree leads. A file that is removed while the descriptor is open can
only be reached through it. -/
inductive IntervalFd
  | closed | file | removed
  deriving DecidableEq, Repr

structure StoredTree where
  tree : Option IntervalTreeDef
  fd : IntervalFd
  file : Option (List UInt8)
  flag : Bool

namespace StoredTree

def useless (size : ℕ) (tree : IntervalTreeDef) : TreeType → Bool
  | .updated =>
    tree.size == 1 && match tree.splay with
      | .nil => false
      | .node root _ _ => root.start == 0 && root.stop == size
  | .modified => tree.size == 0

/-- `remove_file_and_path`: a descriptor of the file stays open. -/
def remove (s : StoredTree) : StoredTree :=
  { s with file := none, fd := if s.fd = .file then .removed else s.fd }

/-- `delete_useless_interval_file`; also whether it was useless. -/
def deleteUselessIntervalFile (size : ℕ) (type : TreeType) (tree : IntervalTreeDef) (s : StoredTree) :
    StoredTree × Bool :=
  if useless size tree type then ({ s with flag := false }.remove, true) else ({ s with flag := true }, false)

def flush (size : ℕ) (type : TreeType) (s : StoredTree) : Option StoredTree :=
  s.tree.map fun tree =>
    let (s, useless) := { s with fd := .closed }.deleteUselessIntervalFile size type tree
    let tree := { tree with deleted := false }
    if useless then { s with tree := tree }
    else { s with tree := tree, file := some (intervalTreeWrite tree), fd := .file }

def flushDeleted (size : ℕ) (type : TreeType) (s : StoredTree) : Option StoredTree :=
  s.tree.bind fun tree => if tree.deleted then s.flush size type else some s

def openIntervalFile (s : StoredTree) : StoredTree :=
  if s.fd = .closed then { s with fd := .file, file := some (s.file.getD []) } else s

def fullWrite (buffer : List UInt8) (s : StoredTree) : StoredTree :=
  if s.fd = .file then { s with file := s.file.map (· ++ buffer) } else s

def appendInterval (size : ℕ) (type : TreeType) (start stop : ℕ) (s : StoredTree) : Option StoredTree := do
  let tree ← (← s.tree).insert start stop
  let s := ({ s with tree := some tree }.openIntervalFile).fullWrite (intervalBytes ⟨start, stop⟩)
  return (s.deleteUselessIntervalFile size type tree).1

/-- The tree that `init_interval_tree` makes of the interval file, which need not exist. -/
def readIntervalFile : Option (List UInt8) → Option IntervalTreeDef
  | none => some .create
  | some file =>
    if file.length % INTERVAL_SIZE ≠ 0 then none
    else
      let n := file.length / INTERVAL_SIZE
      intervalTreeRead n .create n file

def initIntervalTree (size : ℕ) (type : TreeType) (s : StoredTree) : Option StoredTree :=
  if s.flag then do
    let tree ← readIntervalFile s.file
    let tree ← tree.delete size UINT64_MAX
    { s with tree := some tree }.flush size type
  else
    match type with
    | .updated => do
      let tree ← IntervalTreeDef.create.insert 0 size
      return { s with tree := some tree }
    | .modified => some { s with tree := some .create }

def freeIntervalTree (size : ℕ) (type : TreeType) (s : StoredTree) : Option StoredTree :=
  (s.flush size type).map fun s => { s with tree := none, fd := .closed }

def delete (intervals : List Span) (s : StoredTree) : Option StoredTree := do
  let tree ← intervals.foldlM (fun (t : IntervalTreeDef) s => t.delete s.start s.stop) (← s.tree)
  return { s with tree := some tree }

def empty (s : StoredTree) : StoredTree := { s with tree := s.tree.map (·.empty) }

def die (s : StoredTree) : StoredTree := { s with tree := none, fd := .closed }

def offsets (s : StoredTree) : Set ℕ := {x | ∃ tree ∈ s.tree, Covers (inorder tree.splay) x}

end StoredTree

/-! ## The file handle -/

structure IntervalFh where
  size : ℕ
  users : ℕ
  trees : TreeType → StoredTree

namespace IntervalFh

def on (fh : IntervalFh) (type : TreeType) (f : StoredTree → Option StoredTree) : Option IntervalFh :=
  (f (fh.trees type)).map fun s => { fh with trees := Function.update fh.trees type s }

def loadIntervalTrees (fh : IntervalFh) : Option IntervalFh :=
  let fh := { fh with users := u32 (fh.users + 1) }
  if fh.users > 1 then some fh
  else
    (fh.on .updated (·.initIntervalTree fh.size .updated)).bind fun fh =>
      fh.on .modified (·.initIntervalTree fh.size .modified)

/-- `save_interval_trees`; it aborts when there is no user. -/
def saveIntervalTrees (fh : IntervalFh) : Option IntervalFh :=
  if fh.users = 0 then none
  else
    let fh := { fh with users := u32 (fh.users + (2 ^ 32 - 1)) }
    if fh.users > 0 then some fh
    else
      (fh.on .updated (·.freeIntervalTree fh.size .updated)).bind fun fh =>
        fh.on .modified (·.freeIntervalTree fh.size .modified)

/-- The process dies: the interval files, the flags and the file are left. -/
def die (fh : IntervalFh) : IntervalFh := { fh with users := 0, trees := fun type => (fh.trees type).die }

end IntervalFh

/-- A call, or the deletions of a caller with the flush that follows them. Some callers delete from
the modified tree and flush it later; a descriptor may be closed when another file needs it. -/
inductive IntervalCall
  | append (type : TreeType) (start stop : ℕ)
  | delete (type : TreeType) (intervals : List Span)
  | deleteModified (intervals : List Span)
  | empty (type : TreeType)
  | flush (type : TreeType)
  | close (type : TreeType)
  | load
  | save

/-- The intervals that callers give: `append_interval` may get an empty one. -/
def IntervalCall.Valid : IntervalCall → Prop
  | append _ start stop => start ≤ stop ∧ stop ≤ UINT64_MAX
  | delete _ intervals | deleteModified intervals => ∀ s ∈ intervals, s.start < s.stop ∧ s.stop ≤ UINT64_MAX
  | _ => True

instance : DecidablePred IntervalCall.Valid
  | .append .. => inferInstanceAs (Decidable (_ ∧ _))
  | .delete _ intervals | .deleteModified intervals => List.decidableBAll _ intervals
  | .empty _ | .flush _ | .close _ | .load | .save => isTrue trivial

open StoredTree IntervalFh in
def IntervalFh.call (fh : IntervalFh) (c : IntervalCall) : Option IntervalFh :=
  if c.Valid then
    match c with
    | .append type start stop => fh.on type (appendInterval fh.size type start stop)
    | .delete type intervals => fh.on type fun s => (s.delete intervals).bind (flushDeleted fh.size type)
    | .deleteModified intervals => fh.on .modified (StoredTree.delete intervals)
    | .empty type => fh.on type fun s => s.empty.flush fh.size type
    | .flush type => fh.on type (flush fh.size type)
    | .close type => fh.on type fun s => some { s with fd := .closed }
    | .load => fh.loadIntervalTrees
    | .save => fh.saveIntervalTrees
  else none

end ZFS
