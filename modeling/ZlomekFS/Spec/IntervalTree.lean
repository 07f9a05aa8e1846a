import ZlomekFS.Proofs.IntervalNodes

/-! The interval tree of `lib/interval-tree/interval.c`. The splay tree is kept as the list of its nodes in key order, and
the order is part of the type. -/

namespace ZFS
open Spans

structure IntervalTree where
  nodes : List Span
  /-- Whether some interval was deleted since the last flush. -/
  deleted : Bool
  separated : Separated nodes
  deriving DecidableEq

namespace IntervalTree

instance : Membership ℕ IntervalTree := ⟨fun t x => Covers t.nodes x⟩

instance (x : ℕ) (t : IntervalTree) : Decidable (x ∈ t) := inferInstanceAs (Decidable (Covers _ x))

variable {t : IntervalTree}

theorem mem_def {x : ℕ} : x ∈ t ↔ Covers t.nodes x := Iff.rfl

def create : IntervalTree := ⟨[], false, Separated.nil⟩

def empty (t : IntervalTree) : IntervalTree := ⟨[], t.deleted || !t.nodes.isEmpty, Separated.nil⟩

def insert (t : IntervalTree) (start stop : ℕ) (h : start ≤ stop) : IntervalTree :=
  ⟨insertNodes t.nodes start stop, t.deleted, (insertNodes_spec t.separated h).1⟩

def delete (t : IntervalTree) (start stop : ℕ) (h : start < stop) : IntervalTree :=
  ⟨deleteNodes t.nodes start stop, t.deleted || deletesNodes t.nodes start stop,
    (deleteNodes_spec t.separated h).1⟩

def add (t t' : IntervalTree) : IntervalTree :=
  t'.nodes.attach.foldl (fun u s => u.insert s.1.start s.1.stop (t'.separated.le s.1 s.2)) t

def treeMax (t : IntervalTree) : Option Span := t.nodes.getLast?

/-- `INTERVAL_END (interval_tree_max (t))`, 0 for the empty tree. -/
def reach (t : IntervalTree) : ℕ := t.treeMax.elim 0 Span.stop

/-- `interval_tree_delete (t, start, UINT64_MAX)`. Offsets are not bounded here, so the bound is
taken past every interval. -/
def deleteFrom (t : IntervalTree) (start : ℕ) : IntervalTree :=
  t.delete start (max (2 ^ 64 - 1) (start + t.reach + 1)) (by omega)

/-- The nodes from the one that holds `value`, or else from the first after it. -/
def nodesFrom (t : IntervalTree) (value : ℕ) : List Span :=
  match spanAt t.nodes value with
  | some node => node :: after t.nodes value
  | none => ((before t.nodes value).getLast?.filter (value < ·.stop)).toList ++ after t.nodes value

def lookup (t : IntervalTree) (value : ℕ) : Option Span := (t.nodesFrom value).head?

def covered (t : IntervalTree) (start stop : ℕ) : Bool :=
  match (spanAt t.nodes start).or (before t.nodes start).getLast? with
  | none => false
  | some node => stop ≤ node.stop

def intersection (t : IntervalTree) (start stop : ℕ) : List Span :=
  ((t.nodesFrom start).takeWhile (·.start < stop)).map
    fun node => ⟨max start node.start, min stop node.stop⟩

def complement (t : IntervalTree) (start stop : ℕ) : List Span :=
  let last := match spanAt t.nodes start with
    | some node => node.stop
    | none => ((before t.nodes start).getLast?.filter (start < ·.stop)).elim start Span.stop
  gaps stop last (after t.nodes start)

def complementVarray (t : IntervalTree) (src : List Span) : List Span :=
  src.flatMap fun x => t.complement x.start x.stop

end IntervalTree

end ZFS
