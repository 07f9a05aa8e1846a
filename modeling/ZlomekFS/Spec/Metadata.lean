import ZlomekFS.Spec.HashFile
import ZlomekFS.Spec.LocalVolume
import ZlomekFS.Spec.Messages

/-! The metadata of the files of a volume, `fs-entities/metadata/metadata.c`: the records in the hash file
`metadata`, the reverse mapping of master file handles in the hash file `fh_mapping`, and the files with lists
of hardlinks. A hash file is the map it stands for. File operations succeed; the interval files are left out. -/

namespace ZFS.Meta

deriving instance Inhabited for Link

def METADATA_COMPLETE : UInt32 := 1

def METADATA_SHADOW : UInt32 := 16

def fhKey (fh : ZfsFh) : FileId := (fh.dev, fh.ino)

/-- The part of `metadata` up to `parent_dev`, which is the base of an element. -/
structure MetadataBase where
  flags : UInt32
  dev : UInt32
  ino : UInt32
  gen : UInt32
  masterFh : ZfsFh
  localVersion : UInt64
  masterVersion : UInt64
  mode : UInt32
  type : FType
  uid : UInt32
  gid : UInt32
  deriving DecidableEq

def MetadataBase.id (m : MetadataBase) : FileId := (m.dev, m.ino)

/-- A valid `metadata`; `link` is the parent and the name. -/
structure Metadata extends MetadataBase where
  link : Link
  deriving DecidableEq

def noLink : Link := ⟨(0xffffffff, 0xffffffff), []⟩

structure Status where
  flags : UInt32
  mode : UInt32
  type : FType
  uid : UInt32
  gid : UInt32

def Status.fill (st : Status) (m : Metadata) : Metadata :=
  { m with mode := st.mode, type := st.type, uid := st.uid, gid := st.gid }

structure FhMapping where
  masterFh : ZfsFh
  localFh : ZfsFh
  deriving DecidableEq

structure Volume where
  isCopy : Bool
  metadata : Contents FileId MetadataBase Link
  fhMapping : Contents FileId FhMapping Unit
  hardlinks : FileId → Option (List Link)

namespace Volume

variable (v : Volume)

/-! ## The hash files -/

def record (id : FileId) : Option Metadata := (v.metadata id).map fun x => ⟨x.1, x.2⟩

def insertRecord (m : Metadata) (baseOnly : Bool) : Volume :=
  { v with metadata := v.metadata.call MetadataBase.id (.insert (m.toMetadataBase, m.link) baseOnly) }

def mapping (key : FileId) : Option FhMapping := (v.fhMapping key).map Prod.fst

def insertMapping (map : FhMapping) : Volume :=
  { v with fhMapping := v.fhMapping.call (fhKey ·.masterFh) (.insert (map, ()) false) }

def deleteMapping (key : FileId) : Volume :=
  { v with fhMapping := v.fhMapping.call (fhKey ·.masterFh) (.delete key) }

def setHardlinks (id : FileId) (hl : Option (List Link)) : Volume :=
  { v with hardlinks := Function.update v.hardlinks id hl }

/-! ## Records -/

def newMasterVersion : UInt64 := if v.isCopy then 0 else 1

def newMetadata (id : FileId) (st : Status) : Metadata where
  flags := st.flags
  dev := id.1
  ino := id.2
  gen := 1
  masterFh := undefinedFh
  localVersion := 1
  masterVersion := v.newMasterVersion
  mode := st.mode
  type := st.type
  uid := st.uid
  gid := st.gid
  link := noLink

/-- What deleting the metadata makes of a record: the next generation. -/
def nextMetadata (m : Metadata) : Metadata :=
  { m with
    flags := 0
    gen := m.gen + 1
    localVersion := 1
    masterVersion := v.newMasterVersion
    masterFh := undefinedFh
    link := noLink }

def forgetMaster (masterFh : ZfsFh) : Volume :=
  if masterFh = undefinedFh then v else v.deleteMapping (fhKey masterFh)

def deleteMetadataOfCreatedFile (m : Metadata) : Volume × Metadata :=
  let v' := (v.forgetMaster m.masterFh).setHardlinks m.id none
  (v'.insertRecord (v.nextMetadata m) false, v.nextMetadata m)

/-- `lookup_metadata`; no result stands for a slot that is not valid. -/
def lookupMetadata (id : FileId) (st : Status) (insert : Bool) : Volume × Option Metadata :=
  match v.record id with
  | some m =>
    if m.type = .bad then
      if insert then
        let m := { st.fill m with flags := st.flags, masterFh := undefinedFh }
        (v.insertRecord m false, some m)
      else (v, some (st.fill m))
    else if st.type ≠ m.type ∧ st.type ≠ .bad then
      let (v, m) := v.deleteMetadataOfCreatedFile (st.fill m)
      (v, some m)
    else (v, some m)
  | none =>
    if insert then (v.insertRecord (v.newMetadata id st) false, some (v.newMetadata id st))
    else (v, none)

def flushMetadata (m : Metadata) : Volume := v.insertRecord m true

/-! ## Hardlinks -/

/-- `read_hardlinks`; a name of its own stands in the record. -/
def readHardlinks (id : FileId) (st : Status) : Volume × Option Metadata × List Link :=
  let (v, found) := v.lookupMetadata id st false
  match found with
  | none => (v, none, [])
  | some m =>
    if m.type = .bad then (v, some m, [])
    else if m.link.name ≠ [] ∨ m.link.parent = (0, 0) then (v, some m, [m.link])
    else (v, some m, (v.hardlinks id).getD [])

/-- `write_hardlinks`; the metadata `m` are those of a new record where the slot was not valid. -/
def writeHardlinks (id : FileId) (valid : Bool) (m : Metadata) (hl : List Link) : Volume :=
  match hl with
  | [] => v.setHardlinks id none
  | link :: rest =>
    if rest ≠ [] ∨ METADATA_NAME_SIZE ≤ link.name.length then
      let v := v.setHardlinks id (some hl)
      if valid ∧ m.link.name = [] then v else v.insertRecord { m with link := noLink } false
    else (v.insertRecord { m with link := link } false).setHardlinks id none

def metadataHardlinkInsert (id : FileId) (st : Status) (link : Link) : Volume × Metadata :=
  let (v, found, hl) := v.readHardlinks id st
  let m := found.getD (v.newMetadata id st)
  if link ∈ hl then (v, m) else (v.writeHardlinks id found.isSome m (hl ++ [link]), m)

def metadataHardlinkReplace (id : FileId) (st : Status) (old new : Link) (shadow : Bool) : Volume × Metadata :=
  let (v, found, hl) := v.readHardlinks id st
  let m := found.getD (v.newMetadata id st)
  let m := { m with flags := if shadow then m.flags ||| METADATA_SHADOW else m.flags &&& ~~~METADATA_SHADOW }
  if old ∈ hl ∨ new ∉ hl.erase old then
    (v.writeHardlinks id found.isSome m (LocalVolume.hardlinkListInsert (hl.erase old) new), m)
  else (v, m)

def resetMetadata (m : Metadata) (id : FileId) : Volume :=
  let m := match v.record id with
    | some m => m
    | none => { m with dev := id.1, ino := id.2, gen := 1, masterFh := undefinedFh }
  (v.insertRecord { v.nextMetadata m with mode := 0, type := .bad } false).forgetMaster m.masterFh

def deleteMetadata (m : Metadata) (id : FileId) (link : Option Link) : Volume :=
  match link, v.hardlinks id with
  | some link, some hl =>
    if hl.erase link ≠ [] then v.writeHardlinks id true m (hl.erase link)
    else (v.setHardlinks id none).resetMetadata m id
  | _, _ => v.resetMetadata m id

/-! ## Master file handles -/

/-- `get_fh_mapping_for_master_fh`; the result is the mapping if its slot is valid. -/
def getFhMappingForMasterFh (masterFh : ZfsFh) : Volume × Option FhMapping :=
  match v.mapping (fhKey masterFh) with
  | none => (v, none)
  | some map =>
    if map.masterFh.gen < masterFh.gen then (v.deleteMapping (fhKey masterFh), none)
    else if (v.record (fhKey map.localFh)).any (·.gen = map.localFh.gen) then (v, some map)
    else (v.deleteMapping (fhKey masterFh), none)

/-- `set_metadata_master_fh` for a file with the handle `localFh` and the metadata `m` in memory. -/
def setMetadataMasterFh (localFh : ZfsFh) (m : Metadata) (masterFh : ZfsFh) : Volume × Metadata :=
  if m.masterFh = masterFh then (v, m)
  else
    let v' :=
      if fhKey m.masterFh = fhKey masterFh then v.insertMapping ⟨masterFh, localFh⟩
      else
        let v := v.deleteMapping (fhKey m.masterFh)
        if masterFh = undefinedFh then v else v.insertMapping ⟨masterFh, localFh⟩
    let m := { m with masterFh := masterFh }
    (v'.flushMetadata m, m)

end Volume

/-! ## The local file system -/

structure Tree where
  entries : List (Link × FileId)
  nodup : (entries.map Prod.fst).Nodup
  named : ∀ e ∈ entries, e.1.name ≠ []

namespace Tree

variable (t : Tree)

def Exists (id : FileId) : Prop := ∃ link, (link, id) ∈ t.entries

instance (id : FileId) : Decidable (t.Exists id) :=
  decidable_of_iff (∃ e ∈ t.entries, e.2 = id)
    ⟨fun ⟨e, he, hid⟩ => ⟨e.1, hid ▸ he⟩, fun ⟨link, h⟩ => ⟨(link, id), h, rfl⟩⟩

def Free (link : Link) : Prop := link.name ≠ [] ∧ link ∉ t.entries.map Prod.fst

instance (link : Link) : Decidable (t.Free link) := inferInstanceAs (Decidable (_ ∧ _))

def add (link : Link) (id : FileId) (h : t.Free link) : Tree where
  entries := (link, id) :: t.entries
  nodup := List.nodup_cons.mpr ⟨h.2, t.nodup⟩
  named e he := by
    rcases List.mem_cons.mp he with rfl | he
    · exact h.1
    · exact t.named e he

def remove (link : Link) : Tree where
  entries := t.entries.filter (·.1 ≠ link)
  nodup := t.nodup.sublist (List.filter_sublist.map _)
  named e he := t.named e (List.mem_filter.mp he).1

end Tree

end ZFS.Meta
