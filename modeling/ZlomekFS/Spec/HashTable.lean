import ZlomekFS.Lib.Hashed
import ZlomekFS.Spec.HashFile

/-! The hash table in memory, `lib/hashtab/hashtab.c`, and what its clients do with the slots. A call that does
not return is `none`: `get_higher_prime` aborts, or a probe goes on after it has visited as many slots as there are. -/

namespace ZFS
open Probing Hashed

def primes : List ℕ :=
  [7, 13, 31, 61, 127, 251, 509, 1021, 2039, 4093, 8191, 16381, 32749, 65521, 131071, 262139, 524287, 1048573, 2097143,
    4194301, 8388593, 16777213, 33554393, 67108859, 134217689, 268435399, 536870909, 1073741789, 2147483647]

def MAX_PRIME : ℕ := 2147483647

def searchPrime (n : ℕ) : ℕ → ℕ → ℕ → ℕ
  | 0, low, _ => low
  | fuel + 1, low, high =>
    if low = high then low
    else if primes.getD ((low + high) / 2) 0 < n then searchPrime n fuel ((low + high) / 2 + 1) high
    else searchPrime n fuel low ((low + high) / 2)

def getHigherPrime (n : ℕ) : Option ℕ := if MAX_PRIME < n then none else some (primes.getD (searchPrime n 28 0 28) 0)

/-- `hash_f`, and what `eq_f` compares. -/
structure HtabParams (κ α : Type) where
  key : α → κ
  hash : κ → ℕ

structure Htab (α : Type) where
  size : ℕ
  nElements : ℕ
  nDeleted : ℕ
  table : ℕ → Entry α

section HashTable
variable {κ α : Type} [DecidableEq κ] (P : HtabParams κ α)

def HtabParams.next (size : ℕ) (k : κ) : ℕ → ℕ := Probing.next size (1 + P.hash k % (size - 2))

def htabFindEmptySlot (table : ℕ → Entry α) (size : ℕ) (k : κ) : Option ℕ :=
  (walkBy (fun i => (table i).isEmpty) (fun (_ : Unit) _ => ()) (P.next size k) size (P.hash k % size) ()).map Prod.fst

def htabCopy (size : ℕ) (table : ℕ → Entry α) : Entry α → Option (ℕ → Entry α)
  | .elem x => (htabFindEmptySlot P table size (P.key x)).map fun i => Function.update table i (.elem x)
  | _ => some table

namespace Htab

def create (size : ℕ) : Option (Htab α) := (getHigherPrime size).map fun p => ⟨p, 0, 0, fun _ => .empty⟩

def expand (h : Htab α) : Option (Htab α) :=
  (getHigherPrime (u32 (sub32 h.nElements h.nDeleted * 2 + 1))).bind fun size =>
    ((List.range h.size).foldlM (fun table i => htabCopy P size table (h.table i)) fun _ => .empty).map fun table =>
      ⟨size, sub32 h.nElements h.nDeleted, 0, table⟩

def findSlot (h : Htab α) (k : κ) : Option (ℕ × Option ℕ) :=
  walkBy (fun i => stopsAt P.key k (h.table i)) (noteDeleted h.table) (P.next h.size k) h.size (P.hash k % h.size) none

def find (h : Htab α) (k : κ) : Option (Entry α) :=
  (walkBy (fun i => stopsAt P.key k (h.table i)) (fun (_ : Unit) _ => ()) (P.next h.size k) h.size (P.hash k % h.size)
    ()).map fun r => h.table r.1

def grow (h : Htab α) : Option (Htab α) := if u32 (h.size * 2) ≤ u32 (h.nElements * 3) then h.expand P else some h

def insertSlot (h : Htab α) (k : κ) : Option (Htab α × ℕ) :=
  (h.grow P).bind fun h => (h.findSlot P k).map fun r =>
    if (h.table r.1).isEmpty then
      match r.2 with
      | some i => ({ h with nDeleted := sub32 h.nDeleted 1, table := Function.update h.table i .empty }, i)
      | none => ({ h with nElements := u32 (h.nElements + 1) }, r.1)
    else (h, r.1)

def store (h : Htab α) (i : ℕ) (x : α) : Htab α := { h with table := Function.update h.table i (.elem x) }

def clearSlot (h : Htab α) (i : ℕ) : Htab α :=
  { h with table := Function.update h.table i .deleted, nDeleted := u32 (h.nDeleted + 1) }

def empty (h : Htab α) : Htab α := { h with table := fun _ => .empty }

end Htab

inductive HtabCall (α : Type)
  | insert (x : α)
  /-- A slot with an element, found before or met in a traversal, is cleared. -/
  | clear (i : ℕ)
  /-- `internal_dentry_create` looks for a handle with `INSERT`; if there is none, `internal_fh_create` inserts it. -/
  | insertTwice (x : α)
  /-- `filldir_htab`: the slot of an entry with the name is cleared and filled again. -/
  | refill (x : α)
  | empty

/-- A call on the table, with the map that the table should stand for. -/
def htabStep (s : Htab α × (κ → Option α)) : HtabCall α → Option (Htab α × (κ → Option α))
  | .insert x => (s.1.insertSlot P (P.key x)).map fun r => (r.1.store r.2 x, Function.update s.2 (P.key x) (some x))
  | .clear i =>
    match s.1.table i with
    | .elem x => if i < s.1.size then some (s.1.clearSlot i, Function.update s.2 (P.key x) none) else none
    | _ => none
  | .insertTwice x =>
    (s.1.insertSlot P (P.key x)).bind fun r =>
      if (r.1.table r.2).isElem then some (r.1, s.2)
      else (r.1.insertSlot P (P.key x)).map fun r => (r.1.store r.2 x, Function.update s.2 (P.key x) (some x))
  | .refill x =>
    (s.1.insertSlot P (P.key x)).map fun r =>
      ((if (r.1.table r.2).isElem then r.1.clearSlot r.2 else r.1).store r.2 x, Function.update s.2 (P.key x) (some x))
  | .empty => some (s.1.empty, fun _ => none)

end HashTable
end ZFS
