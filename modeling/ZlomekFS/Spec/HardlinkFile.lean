import ZlomekFS.Lib.Runs
import ZlomekFS.Spec.Metadata

/-! The list of hardlinks of one file as `metadata.c` stores it: one short name in the record of the file, anything else
in the hardlink file. Operations on files succeed. The fields `dev` and `ino` of a record in memory are those of the
file, as `lookup_metadata` sets them. -/

namespace ZFS.Meta
open Bytes

def nameField (name : Name) : List UInt8 := name ++ List.replicate (METADATA_NAME_SIZE - name.length) 0

def cString (field : List UInt8) : Name := field.takeWhile (· ≠ 0)

structure StoredMetadata extends MetadataBase where
  parent : FileId
  name : List UInt8
  deriving DecidableEq

/-- `metadata` in memory; `valid` says whether the slot is valid. -/
structure Slot extends StoredMetadata where
  valid : Bool
  deriving DecidableEq

/-- `hardlink_list`: each link once. The names are strings, and their length with the zero fits its type. -/
structure HardlinkList where
  links : List Link
  nodup : links.Nodup
  strings : ∀ l ∈ links, 0 ∉ l.name
  fits : ∀ l ∈ links, l.name.length + 1 < 2 ^ 32

structure HardlinkStore where
  isCopy : Bool
  record : Option StoredMetadata
  file : Option (List UInt8)
  deriving DecidableEq

def StoredMetadata.HasLink (r : StoredMetadata) : Prop := r.name.headD 0 ≠ 0 ∨ r.parent = (0, 0)

instance (r : StoredMetadata) : Decidable r.HasLink := inferInstanceAs (Decidable (_ ∨ _))

/-! ## The hardlink file -/

def linkBytes (l : Link) : List UInt8 :=
  toLE 4 l.parent.1.toNat ++ (toLE 4 l.parent.2.toNat ++ (toLE 4 l.name.length ++ (l.name ++ [0])))

def readLink : Reader Link := do
  let dev ← number 4
  let ino ← number 4
  let len ← number 4
  let str ← bytes (u32 (len + 1))
  return ⟨(UInt32.ofNat dev, UInt32.ofNat ino), str.take len⟩

/-- `read_hardlinks_file`; a link takes bytes, so there are not more of them than bytes. -/
def readHardlinksFile (file : List UInt8) : List Link :=
  (readAll readLink file.length file).foldl LocalVolume.hardlinkListInsert []

/-! ## Reading and writing -/

/-- The record that is written for a slot: a new one where the slot is not valid. -/
def Slot.initialized (m : Slot) (isCopy : Bool) : StoredMetadata :=
  if m.valid then m.toStoredMetadata
  else
    { m.toStoredMetadata with
      gen := 1, localVersion := 1, masterVersion := if isCopy then 0 else 1, masterFh := undefinedFh }

namespace HardlinkStore

variable (s : HardlinkStore)

def lookupMetadata (m : Slot) : HardlinkStore × Slot :=
  match s.record with
  | none => (s, { m with valid := false })
  | some r =>
    if r.type = .bad then
      (s, ⟨{ r with mode := m.mode, type := m.type, uid := m.uid, gid := m.gid }, true⟩)
    else if m.type ≠ r.type ∧ m.type ≠ .bad then
      -- `delete_metadata_of_created_file`
      let r := { r with
        flags := 0, gen := r.gen + 1, localVersion := 1, masterVersion := if s.isCopy then 0 else 1
        masterFh := undefinedFh, mode := m.mode, type := m.type, uid := m.uid, gid := m.gid
        parent := noLink.parent, name := nameField [] }
      (⟨s.isCopy, some r, none⟩, ⟨r, true⟩)
    else (s, ⟨r, true⟩)

def readHardlinks (m : Slot) : HardlinkStore × Slot × List Link :=
  let (s, m) := s.lookupMetadata m
  if !m.valid then (s, m, [])
  else if m.type = .bad then (s, m, [])
  else if m.HasLink then (s, m, [⟨m.parent, cString m.name⟩])
  else (s, m, (s.file.map readHardlinksFile).getD [])

def writeHardlinks (m : Slot) (hl : HardlinkList) : HardlinkStore :=
  match hl.links with
  | [] => { s with file := none }
  | link :: rest =>
    if rest ≠ [] ∨ METADATA_NAME_SIZE ≤ link.name.length then
      let s := { s with file := some (hl.links.flatMap linkBytes) }
      if m.valid ∧ m.name.headD 0 = 0 then s
      else { s with record := some { m.initialized s.isCopy with parent := noLink.parent, name := nameField [] } }
    else
      { s with
        record := some { m.initialized s.isCopy with parent := link.parent, name := nameField link.name }
        file := none }

def metadataNHardlinks (m : Slot) : ℕ := (s.readHardlinks m).2.2.length

/-! ## What the functions are for -/

/-- The list is stored together with the rest of the metadata that were passed. The readers know the type of the file
or none. -/
structure Holds (m : Slot) (hl : HardlinkList) : Prop where
  read : ∀ m' : Slot, m'.type = m.type ∨ m'.type = .bad →
    (s.readHardlinks m').1 = s ∧ ∀ l, l ∈ (s.readHardlinks m').2.2 ↔ l ∈ hl.links
  count : ∀ m' : Slot, m'.type = m.type ∨ m'.type = .bad → s.metadataNHardlinks m' = hl.links.length
  noStale : ∀ r ∈ s.record, r.HasLink → s.file = none
  base : ∀ r ∈ s.record, r.toMetadataBase = (m.initialized s.isCopy).toMetadataBase

/-- The record has no link that counts and is the one that was passed, or there is none. -/
def Unchanged (m : Slot) : Prop :=
  ∀ r ∈ s.record, (r.HasLink → r.type = .bad) ∧ r.toMetadataBase = (m.initialized s.isCopy).toMetadataBase

/-- Where the record is not written it is right already, and a single link can be told from no link. -/
def WriteSafe (m : Slot) (hl : HardlinkList) : Prop :=
  (m.type = .bad → hl.links = []) ∧
    match hl.links with
    | [] => s.Unchanged m
    | link :: rest =>
      if rest ≠ [] ∨ METADATA_NAME_SIZE ≤ link.name.length then
        m.valid ∧ m.name.headD 0 = 0 → s.record.isSome ∧ s.Unchanged m
      else link.name ≠ [] ∨ link.parent = (0, 0)

end HardlinkStore

/-! ## Sequences of calls -/

inductive HardlinkCall
  | write (m : Slot) (hl : HardlinkList)
  | read (m : Slot)

structure HardlinkState where
  store : HardlinkStore
  last : Option (Slot × HardlinkList)

namespace HardlinkState

variable (s : HardlinkState)

def step : HardlinkCall → Option HardlinkState
  | .write m hl => some ⟨s.store.writeHardlinks m hl, some (m, hl)⟩
  | .read m =>
    if s.last.all fun x => m.type = x.1.type || m.type = .bad then some ⟨(s.store.readHardlinks m).1, s.last⟩ else none

def Right : Prop := ∀ x ∈ s.last, s.store.Holds x.1 x.2

def Safe : HardlinkCall → Prop
  | .write m hl => s.store.WriteSafe m hl
  | .read _ => True

end HardlinkState

end ZFS.Meta
