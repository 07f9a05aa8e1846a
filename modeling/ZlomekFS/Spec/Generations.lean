import ZlomekFS.Lib.Runs
import ZlomekFS.Spec.Metadata

/-! Generations of inodes. The steps are the sections of the code in which the mutex of the volume is held:
`lookup_metadata`, `metadata_hardlink_insert`, the end of `local_create`, `local_unlink` with `delete_metadata`,
and `flush_metadata` with the metadata that an internal file handle has in memory. The operating system creates and
links files; it gives an inode to another file when the last name of the old one is removed. -/

namespace ZFS.Meta

/-- A handle that `lookup_metadata` gave out, with the file it was given out for. -/
structure Handed where
  id : FileId
  gen : UInt32
  birth : ℕ
  type : FType
  deriving DecidableEq

structure GenState where
  vol : Volume
  tree : Tree
  ftype : FileId → FType
  births : FileId → ℕ
  handed : List Handed

inductive GenEvent
  | create (id : FileId) (type : FType) (link : Link)
  | link (id : FileId) (link : Link)
  | lookup (id : FileId) (st : Status) (insert : Bool)
  /-- `lookup_metadata` when the caller does not know the type of the file -/
  | peek (id : FileId) (st : Status) (insert : Bool)
  | created (id : FileId) (st : Status)
  | list (id : FileId) (st : Status) (link : Link)
  | unlink (id : FileId) (st : Status) (link : Link)
  | flush (m : Metadata)

namespace GenState

variable (s : GenState)

def hand (id : FileId) (gen : UInt32) : GenState :=
  { s with handed := ⟨id, gen, s.births id, s.ftype id⟩ :: s.handed }

def handAll (id : FileId) (m : Option Metadata) : GenState :=
  match m with
  | some m => s.hand id m.gen
  | none => s

def step : GenEvent → Option GenState
  | .create id type link =>
    if h : ¬ s.tree.Exists id ∧ type ≠ .bad ∧ s.tree.Free link then
      some { s with
        tree := s.tree.add link id h.2.2
        ftype := Function.update s.ftype id type
        births := Function.update s.births id (s.births id + 1) }
    else none
  | .link id link =>
    if h : s.tree.Exists id ∧ s.tree.Free link then some { s with tree := s.tree.add link id h.2 } else none
  | .lookup id st insert =>
    if s.tree.Exists id ∧ st.type = s.ftype id then
      let (vol, m) := s.vol.lookupMetadata id st insert
      some ({ s with vol := vol }.handAll id m)
    else none
  | .peek id st insert =>
    if st.type = .bad then some { s with vol := (s.vol.lookupMetadata id st insert).1 } else none
  | .created id st =>
    if s.tree.Exists id ∧ st.type = s.ftype id then
      match s.vol.lookupMetadata id st true with
      | (vol, some m) =>
        let (vol, m) := if m.masterFh = undefinedFh then (vol, m) else vol.deleteMetadataOfCreatedFile m
        some ({ s with vol := vol }.hand id m.gen)
      | (vol, none) => some { s with vol := vol }
    else none
  | .list id st link =>
    if (link, id) ∈ s.tree.entries ∧ st.type = s.ftype id then
      let (vol, m) := s.vol.metadataHardlinkInsert id st link
      some ({ s with vol := vol }.hand id m.gen)
    else none
  | .unlink id st link =>
    if (link, id) ∈ s.tree.entries ∧ st.type = s.ftype id then
      match s.vol.lookupMetadata id st true with
      | (vol, some m) =>
        some ({ s with vol := vol.deleteMetadata m id (some link), tree := s.tree.remove link }.hand id m.gen)
      | (vol, none) => some { s with vol := vol, tree := s.tree.remove link }
    else none
  | .flush m => some { s with vol := s.vol.flushMetadata m }

end GenState

/-- The metadata files were just created; the files on the disk are there already. -/
def GenState.start (isCopy : Bool) (tree : Tree) (ftype : FileId → FType) : GenState where
  vol := ⟨isCopy, fun _ => none, fun _ => none, fun _ => none⟩
  tree := tree
  ftype := ftype
  births _ := 0
  handed := []

/-! ## What generations are for -/

/-- Generations do not decrease, and another file or another type has a higher one. -/
def Handed.After (later earlier : Handed) : Prop :=
  later.id = earlier.id → earlier.gen ≤ later.gen ∧
    (later.birth ≠ earlier.birth ∨ later.type ≠ earlier.type → earlier.gen < later.gen)

def GenState.Unique (s : GenState) : Prop := s.handed.Pairwise Handed.After

/-- The number of times `lookup_metadata` increases the generation: the type of the file is not that of the record. -/
def Metadata.retyped (m : Metadata) (type : FType) : ℕ := if m.type ≠ .bad ∧ type ≠ m.type ∧ type ≠ .bad then 1 else 0

/-- The generation in the record does not overflow, and the metadata in memory that are written to the file have the
generation of the record: the record was not deleted since they were read. -/
def GenState.GenSafe (s : GenState) : GenEvent → Prop
  | .create _ _ _ | .link _ _ | .peek _ _ _ => True
  | .lookup id st _ | .list id st _ => ∀ m ∈ s.vol.record id, m.gen.toNat + m.retyped st.type < 2 ^ 32
  | .created id st | .unlink id st _ => ∀ m ∈ s.vol.record id, m.gen.toNat + m.retyped st.type + 1 < 2 ^ 32
  | .flush m => ∃ r ∈ s.vol.record m.id, r.gen = m.gen

instance (s : GenState) : (e : GenEvent) → Decidable (s.GenSafe e)
  | .create _ _ _ | .link _ _ | .peek _ _ _ => inferInstanceAs (Decidable True)
  | .lookup id st _ | .list id st _ =>
    inferInstanceAs (Decidable (∀ m ∈ s.vol.record id, m.gen.toNat + m.retyped st.type < 2 ^ 32))
  | .created id st | .unlink id st _ =>
    inferInstanceAs (Decidable (∀ m ∈ s.vol.record id, m.gen.toNat + m.retyped st.type + 1 < 2 ^ 32))
  | .flush m => inferInstanceAs (Decidable (∃ r ∈ s.vol.record m.id, r.gen = m.gen))

end ZFS.Meta
