import ZlomekFS.Lib.Runs
import ZlomekFS.Lib.Tables

/-! The two tables of the volumes: `volume_create`, `volume_set_common_info` and `volume_destroy` of
`fs-entities/volume/volume.c`. A volume is known by the number of its allocation, an entry of a table by the key it was
stored with. What the functions do to dentries, virtual directories and metadata is left out, as are the other fields
of a volume. -/

namespace ZFS.Volumes

structure Volume where
  id : UInt32
  /-- `none` is `invalid_string`. -/
  name : Option (List UInt8)
  mountpoint : List UInt8

structure State where
  volumes : ℕ → Option Volume
  next : ℕ
  byId : UInt32 → Option ℕ
  byName : List UInt8 → Option ℕ

inductive Event
  | create (id : UInt32)
  | setCommonInfo (vol : ℕ) (name mountpoint : List UInt8)
  | destroy (vol : ℕ) (rootDentry : Bool)

namespace State

variable (s : State)

def setVolume (vol : ℕ) (v : Volume) : State := { s with volumes := Function.update s.volumes vol (some v) }

def volumeCreate (id : UInt32) : State :=
  { s.setVolume s.next ⟨id, none, []⟩ with next := s.next + 1, byId := Function.update s.byId id (some s.next) }

def clearName (vol : ℕ) (v : Volume) : State :=
  match v.name with
  | none => s
  | some old => { s.setVolume vol { v with name := none } with byName := Function.update s.byName old none }

def volumeSetCommonInfo (vol : ℕ) (v : Volume) (name mountpoint : List UInt8) : State :=
  if v.name = some name then s.setVolume vol { v with mountpoint := mountpoint }
  else
    let s := s.clearName vol v
    match s.byName name with
    -- another volume has the name, so this one is left without one
    | some _ => s
    | none =>
      { s.setVolume vol { v with name := some name, mountpoint := mountpoint } with
        byName := Function.update s.byName name (some vol) }

def free (vol : ℕ) : State :=
  match s.volumes vol with
  | none => s
  | some v => { s with volumes := Function.update s.volumes vol none, byId := Function.update s.byId v.id none }

/-- `volume_destroy`, which looks the volume up again after its dentries are destroyed. -/
def volumeDestroy (vol : ℕ) (v : Volume) (rootDentry : Bool) : State :=
  if rootDentry then
    match s.byId v.id with
    | some vol => s.free vol
    | none => s
  else s.free vol

def step : Event → Option State
  | .create id => some (s.volumeCreate id)
  | .setCommonInfo vol name mountpoint => (s.volumes vol).map fun v => s.volumeSetCommonInfo vol v name mountpoint
  | .destroy vol rootDentry => (s.volumes vol).map fun v => s.volumeDestroy vol v rootDentry

def start : State := ⟨fun _ => none, 0, fun _ => none, fun _ => none⟩

/-! ## What the tables are for -/

def idOf (vol : ℕ) : Option UInt32 := (s.volumes vol).map Volume.id

def nameOf (vol : ℕ) : Option (List UInt8) := (s.volumes vol).bind Volume.name

/-- The tables find the volumes that are not freed, each under its id and under the name it has. -/
structure Right : Prop where
  byId : Tables.Inverse s.byId s.idOf
  byName : Tables.Inverse s.byName s.nameOf

/-- No id is given to a second volume, and no volume is destroyed while it has a name. -/
def Safe : Event → Prop
  | .create id => s.byId id = none
  | .setCommonInfo _ _ _ => True
  | .destroy vol _ => s.nameOf vol = none

end State

end ZFS.Volumes
