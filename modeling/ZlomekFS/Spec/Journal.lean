import ZlomekFS.Lib.Chains
import ZlomekFS.Spec.Synchronize

/-! The journal of a directory, `fs-entities/journal/journal.c`: entries in a doubly linked chain, and a
hash table that finds the entry with an operation and a name. The second part reads the journal as the
list of its entries. -/

namespace ZFS
open Chains

abbrev Name := List UInt8

instance : LawfulBEq Name := inferInstance

inductive JournalOperation
  | add | del
  deriving DecidableEq, Repr

/-- `journal_entry`; `file` holds device, inode and generation of the local file. -/
structure JournalEntry where
  oper : JournalOperation
  name : Name
  file : UInt32 × UInt32 × UInt32
  masterFh : ZfsFh
  masterVersion : ℕ
  deriving DecidableEq, Repr

/-- What `journal_eq` compares. -/
abbrev JournalKey := JournalOperation × Name

def JournalEntry.key (e : JournalEntry) : JournalKey := (e.oper, e.name)

/-- `journal_t`; a slot of the hash table holds the address of an entry. -/
structure Journal where
  chain : Chain JournalEntry
  htab : JournalKey → Option ℕ

namespace Journal

def create : Journal := ⟨.nil, fun _ => none⟩

def member (j : Journal) (key : JournalKey) : Bool := (j.htab key).isSome

def delete (j : Journal) (key : JournalKey) : Journal × Bool :=
  match j.htab key with
  | none => (j, false)
  | some del => (⟨j.chain.unlink del, Function.update j.htab key none⟩, true)

def replace (j : Journal) (addr : ℕ) (e : JournalEntry) : Journal :=
  let chain := match j.htab e.key with
    | some old => j.chain.unlink old
    | none => j.chain
  ⟨chain.append addr e, Function.update j.htab e.key (some addr)⟩

/-- `journal_insert`; `addr` is what the pool hands out. -/
def insert (j : Journal) (addr : ℕ) (e : JournalEntry) : Journal :=
  match e.oper with
  | .add => j.replace addr e
  | .del =>
    -- an entry for the addition of the name and this one annihilate each other
    match j.delete (.add, e.name) with
    | (j, true) => j
    | (j, false) => j.replace addr e

end Journal

/-! ## The journal as a list -/

def eraseKey (l : List JournalEntry) (key : JournalKey) : List JournalEntry := l.filter (·.key ≠ key)

/-- What `journal_insert` does to the list of entries. -/
def journalInsert (l : List JournalEntry) (e : JournalEntry) : List JournalEntry :=
  if e.oper = .del ∧ ∃ a ∈ l, a.key = (.add, e.name) then eraseKey l (.add, e.name)
  else eraseKey l e.key ++ [e]

namespace Journal

/-- The journal holds the entries at these addresses, in the chain and in the hash table. -/
structure Holds (j : Journal) (l : List (ℕ × JournalEntry)) : Prop where
  chain : j.chain.Holds l
  htab : ∀ key p, j.htab key = some p ↔ ∃ e, (p, e) ∈ l ∧ e.key = key

end Journal

end ZFS
