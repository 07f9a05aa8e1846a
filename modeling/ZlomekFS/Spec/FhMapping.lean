import ZlomekFS.Lib.Runs
import ZlomekFS.Spec.Metadata

/-! The reverse mapping of master file handles: calls of `set_metadata_master_fh`, `get_fh_mapping_for_master_fh`,
`delete_metadata` and `delete_metadata_of_created_file`, and of `lookup_metadata`, which makes the records. The
metadata that a call gets are those that its caller has in memory. -/

namespace ZFS.Meta

structure MapState where
  vol : Volume
  /-- The master file handle of the last call if it was `get_fh_mapping_for_master_fh`, and the mapping it returned. -/
  answer : Option (ZfsFh × FhMapping)

inductive MapEvent
  | lookup (id : FileId) (st : Status) (insert : Bool)
  | set (localFh : ZfsFh) (m : Metadata) (masterFh : ZfsFh)
  | get (masterFh : ZfsFh)
  | delete (m : Metadata) (id : FileId) (link : Option Link)
  | deleteCreated (m : Metadata)

def MapState.step (s : MapState) : MapEvent → Option MapState
  | .lookup id st insert => some ⟨(s.vol.lookupMetadata id st insert).1, none⟩
  | .set localFh m masterFh => some ⟨(s.vol.setMetadataMasterFh localFh m masterFh).1, none⟩
  | .get masterFh =>
    let (vol, map) := s.vol.getFhMappingForMasterFh masterFh
    some ⟨vol, map.map (masterFh, ·)⟩
  | .delete m id link => some ⟨s.vol.deleteMetadata m id link, none⟩
  | .deleteCreated m => some ⟨(s.vol.deleteMetadataOfCreatedFile m).1, none⟩

def MapState.start (isCopy : Bool) : MapState := ⟨⟨isCopy, fun _ => none, fun _ => none, fun _ => none⟩, none⟩

/-! ## What the mapping is for -/

def Volume.Live (v : Volume) (fh : ZfsFh) (m : Metadata) : Prop :=
  v.record (fhKey fh) = some m ∧ m.type ≠ .bad ∧ m.gen = fh.gen

/-- The mapping is the inverse of the master file handles in the metadata. -/
structure MapState.Inverse (s : MapState) : Prop where
  answer : ∀ masterFh map, s.answer = some (masterFh, map) →
    map.masterFh = masterFh ∧ ∃ m, s.vol.Live map.localFh m ∧ m.masterFh = masterFh
  injective : ∀ fh fh' m m', s.vol.Live fh m → s.vol.Live fh' m' → m.masterFh ≠ undefinedFh →
    m.masterFh = m'.masterFh → fhKey fh = fhKey fh'
  found : ∀ fh m, s.vol.Live fh m → m.masterFh ≠ undefinedFh →
    ∃ map, (s.vol.getFhMappingForMasterFh m.masterFh).2 = some map ∧ fhKey map.localFh = fhKey fh ∧ map.localFh.gen = fh.gen

/-- The metadata in memory have the generation and the master file handle of the record. -/
def Volume.Fresh (v : Volume) (m : Metadata) : Prop :=
  ∃ r ∈ v.record m.id, r.type ≠ .bad ∧ m.type ≠ .bad ∧ r.gen = m.gen ∧ r.masterFh = m.masterFh

/-- A file gets a master file handle only if no other file has one with the same device and inode. A handle is looked
up only if the mapping for its device and inode has no other generation: a mapping with a newer one is returned, and
a mapping with an older one is deleted although its file is still there. -/
def MapState.MapSafe (s : MapState) : MapEvent → Prop
  | .lookup _ _ _ => True
  | .set localFh m masterFh => s.vol.Fresh m ∧ m.id = fhKey localFh ∧ m.gen = localFh.gen ∧
    (masterFh ≠ undefinedFh → fhKey masterFh ≠ fhKey undefinedFh ∧
      ∀ id r, s.vol.record id = some r → fhKey r.masterFh = fhKey masterFh → id = m.id)
  | .get masterFh => ∀ map ∈ s.vol.mapping (fhKey masterFh),
    map.masterFh.sid = masterFh.sid ∧ map.masterFh.vid = masterFh.vid ∧ map.masterFh.gen ≤ masterFh.gen ∧
      (map.masterFh.gen < masterFh.gen → ∀ m, ¬ s.vol.Live map.localFh m)
  | .delete m id _ => s.vol.record id = some m
  | .deleteCreated m => s.vol.Fresh m

end ZFS.Meta
