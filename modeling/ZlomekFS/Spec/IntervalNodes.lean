import ZlomekFS.Lib.Spans

/-! The nodes of the interval tree of `lib/interval-tree/interval.c` in key order: `before`/`after` hold the predecessors
and successors of a key and `spanAt` is the lookup of a key. -/

namespace ZFS
open Spans

def insertNodes (l : List Span) (start stop : ℕ) : List Span :=
  let lo := before l start
  let hi := after l start
  match spanAt l start with
  | some node => if stop ≤ node.stop then l else lo ++ absorb ⟨start, stop⟩ hi
  | none =>
    if let some prev := lo.getLast?.filter (start ≤ ·.stop) then
      lo.dropLast ++ absorb ⟨prev.start, max prev.stop stop⟩ hi
    else if let some next := hi.head?.filter (·.start ≤ stop) then
      lo ++ absorb ⟨start, max next.stop stop⟩ hi.tail
    else lo ++ absorb ⟨start, stop⟩ hi

def deleteNodes (l : List Span) (start stop : ℕ) : List Span :=
  let lo := before l start
  let hi := after l start
  match spanAt l start with
  | some node => if stop < node.stop then lo ++ ⟨stop, node.stop⟩ :: hi else lo ++ cut stop hi
  | none =>
    if let some prev := lo.getLast?.filter (start < ·.stop) then
      if stop < prev.stop then lo.dropLast ++ ⟨prev.start, start⟩ :: ⟨stop, prev.stop⟩ :: hi
      else lo.dropLast ++ ⟨prev.start, start⟩ :: cut stop hi
    else lo ++ cut stop hi

def deletesNodes (l : List Span) (start stop : ℕ) : Bool :=
  (spanAt l start).isSome || (before l start).getLast?.any (start < ·.stop) ||
    (after l start).head?.any (·.start < stop)

end ZFS
