import ZlomekFS.Spec.FileHandle
import ZlomekFS.Spec.SplayTree

/-! The functions of `lib/interval-tree/interval.c` on the splay tree itself. They refine the interval
tree as a list of nodes: each function does to the nodes in key order what the function of the same
name does to the list, and keeps their number. The loops get the number of nodes as fuel; `none` would
be a loop that does not end. -/

namespace ZFS
open Spans Trees

/-- `interval_tree_def`; `size` is an `unsigned int`. -/
structure IntervalTreeDef where
  splay : BinaryTree Span
  size : ℕ
  deleted : Bool
  deriving DecidableEq, Repr

namespace IntervalTreeDef

def grow (t : IntervalTreeDef) : IntervalTreeDef := { t with size := u32 (t.size + 1) }

def shrink (t : IntervalTreeDef) : IntervalTreeDef := { t with size := u32 (t.size + (2 ^ 32 - 1)) }

def create : IntervalTreeDef := ⟨.nil, 0, false⟩

def empty (t : IntervalTreeDef) : IntervalTreeDef := ⟨.nil, 0, t.deleted || t.splay ≠ .nil⟩

def mergeSuccessors : ℕ → IntervalTreeDef → Span → Option IntervalTreeDef
  | 0, _, _ => none
  | fuel + 1, t, node =>
    match splayTreeSuccessor t.splay node.start with
    | (splay, none) => some { t with splay := splay }
    | (splay, some next) =>
      if next.start ≤ node.stop then
        let merged : Span := ⟨node.start, if node.stop < next.stop then next.stop else node.stop⟩
        mergeSuccessors fuel
          { t with splay := splayTreeDelete (setNode splay node.start merged) next.start }.shrink merged
      else some { t with splay := splay }

def insert (t : IntervalTreeDef) (start stop : ℕ) : Option IntervalTreeDef :=
  let fuel := t.splay.numNodes + 1
  let (splay, node) := splayTreeLookup t.splay start
  match node with
  | some node =>
    if stop ≤ node.stop then some { t with splay := splay }
    else
      let node' : Span := ⟨node.start, stop⟩
      mergeSuccessors fuel { t with splay := setNode splay node.start node' } node'
  | none =>
    let (splay, prev) := splayTreePredecessor splay start
    let (splay, next) := splayTreeSuccessor splay start
    if let some prev := prev.filter (start ≤ ·.stop) then
      -- PREV is extended
      let node' : Span := ⟨prev.start, if prev.stop < stop then stop else prev.stop⟩
      mergeSuccessors fuel { t with splay := setNode splay prev.start node' } node'
    else if let some next := next.filter (·.start ≤ stop) then
      -- NEXT is extended, its key changes
      let node' : Span := ⟨if start < next.start then start else next.start,
        if next.stop < stop then stop else next.stop⟩
      mergeSuccessors fuel { t with splay := setNode splay next.start node' } node'
    else mergeSuccessors fuel { t with splay := splayTreeInsert splay start stop }.grow ⟨start, stop⟩

def deleteSuccessors (start stop : ℕ) : ℕ → IntervalTreeDef → Option IntervalTreeDef
  | 0, _ => none
  | fuel + 1, t =>
    match splayTreeSuccessor t.splay start with
    | (splay, none) => some { t with splay := splay }
    | (splay, some next) =>
      if stop ≤ next.start then some { t with splay := splay }
      else if next.stop ≤ stop then
        deleteSuccessors start stop fuel
          { t with splay := splayTreeDelete splay next.start, deleted := true }.shrink
      else some { t with splay := setNode splay next.start ⟨stop, next.stop⟩, deleted := true }

def delete (t : IntervalTreeDef) (start stop : ℕ) : Option IntervalTreeDef :=
  let fuel := t.splay.numNodes + 1
  let (splay, node) := splayTreeLookup t.splay start
  match node with
  | some node =>
    if stop < node.stop then
      some { t with splay := setNode splay node.start ⟨stop, node.stop⟩, deleted := true }
    else deleteSuccessors start stop fuel { t with splay := splayTreeDelete splay start, deleted := true }.shrink
  | none =>
    let (splay, prev) := splayTreePredecessor splay start
    if let some prev := prev.filter (start < ·.stop) then
      if stop < prev.stop then
        -- a subinterval is cut from PREV
        some { t with
          splay := setNode (splayTreeInsert splay stop prev.stop) prev.start ⟨prev.start, start⟩
          deleted := true }.grow
      else
        deleteSuccessors start stop fuel
          { t with splay := setNode splay prev.start ⟨prev.start, start⟩, deleted := true }
    else deleteSuccessors start stop fuel { t with splay := splay }

def add (t t' : IntervalTreeDef) : Option IntervalTreeDef :=
  (foreachInorder (fun node t => (t.insert node.start node.stop).map (·, false)) t'.splay t).map (·.1)

/-- `interval_tree_sub`; it stops when there is nothing left to delete. -/
def sub (t t' : IntervalTreeDef) : Option IntervalTreeDef :=
  (foreachInorder (fun node t => (t.delete node.start node.stop).map fun t => (t, decide (t.splay = .nil)))
    t'.splay t).map (·.1)

def lookup (t : IntervalTreeDef) (value : ℕ) : IntervalTreeDef × Option Span :=
  let (splay, node) := splayTreeLookup t.splay value
  match node with
  | some node => ({ t with splay := splay }, some node)
  | none =>
    let (splay, prev) := splayTreePredecessor splay value
    match prev.filter (value < ·.stop) with
    | some node => ({ t with splay := splay }, some node)
    | none =>
      let (splay, next) := splayTreeSuccessor splay value
      ({ t with splay := splay }, next)

def covered (t : IntervalTreeDef) (start stop : ℕ) : IntervalTreeDef × Bool :=
  let (splay, node) := splayTreeLookup t.splay start
  match node with
  | some node => ({ t with splay := splay }, stop ≤ node.stop)
  | none =>
    let (splay, prev) := splayTreePredecessor splay start
    ({ t with splay := splay }, prev.any (stop ≤ ·.stop))

/-- The loop of `interval_tree_intersection_1`; `dest` is what was pushed so far. -/
def intersectionLoop (start stop : ℕ) :
    ℕ → IntervalTreeDef → Option Span → List Span → Option (IntervalTreeDef × List Span)
  | 0, _, _, _ => none
  | _ + 1, t, none, dest => some (t, dest)
  | fuel + 1, t, some node, dest =>
    if node.start < stop then
      let (splay, next) := splayTreeSuccessor t.splay node.start
      intersectionLoop start stop fuel { t with splay := splay } next
        (dest ++ [⟨max start node.start, min stop node.stop⟩])
    else some (t, dest)

/-- `interval_tree_intersection_1`. The first node is found as `interval_tree_lookup` does it; where there is none, the
successor is asked for once more. -/
def intersection1 (t : IntervalTreeDef) (start stop : ℕ) (dest : List Span) : Option (IntervalTreeDef × List Span) :=
  let fuel := t.splay.numNodes + 1
  match t.lookup start with
  | (t, some node) => intersectionLoop start stop fuel t (some node) dest
  | (t, none) =>
    let (splay, next) := splayTreeSuccessor t.splay start
    intersectionLoop start stop fuel { t with splay := splay } next dest

def intersection (t : IntervalTreeDef) (start stop : ℕ) : Option (IntervalTreeDef × List Span) :=
  t.intersection1 start stop []

def intersectionVarray (t : IntervalTreeDef) (src dest : List Span) : Option (IntervalTreeDef × List Span) :=
  match src with
  | [] => some (t, dest)
  | x :: src => (t.intersection1 x.start x.stop dest).bind fun (t, dest) => t.intersectionVarray src dest

def complementLoop (stop : ℕ) : ℕ → IntervalTreeDef → ℕ → Option Span → List Span → Option (IntervalTreeDef × List Span)
  | 0, _, _, _, _ => none
  | fuel + 1, t, last, node, dest =>
    if last < stop then
      match node with
      | some node =>
        let (splay, next) := splayTreeSuccessor t.splay node.start
        complementLoop stop fuel { t with splay := splay } node.stop next (dest ++ [⟨last, node.start⟩])
      | none => some (t, dest ++ [⟨last, stop⟩])
    else some (t, dest)

def complement1 (t : IntervalTreeDef) (start stop : ℕ) (dest : List Span) : Option (IntervalTreeDef × List Span) :=
  let (splay, node) := splayTreeLookup t.splay start
  let (splay, last) := match node with
    | some node => (splay, node.stop)
    | none =>
      let (splay, prev) := splayTreePredecessor splay start
      (splay, (prev.filter (start < ·.stop)).elim start Span.stop)
  let (splay, node) := splayTreeSuccessor splay start
  complementLoop stop (t.splay.numNodes + 1) { t with splay := splay } last node dest

def complement (t : IntervalTreeDef) (start stop : ℕ) : Option (IntervalTreeDef × List Span) :=
  t.complement1 start stop []

def complementVarray (t : IntervalTreeDef) (src dest : List Span) : Option (IntervalTreeDef × List Span) :=
  match src with
  | [] => some (t, dest)
  | x :: src => (t.complement1 x.start x.stop dest).bind fun (t, dest) => t.complementVarray src dest

end IntervalTreeDef

end ZFS
