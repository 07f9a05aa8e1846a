import ZlomekFS.Spec.Journal

/-! The files of a volume on the local disk and what `metadata.c` keeps about them: the metadata record
of a file and the list of its names, which is part of the record if it is one short name and stands in a
file of its own otherwise. System calls succeed. Versions, generations, attributes and the mapping of
master file handles are left out. -/

namespace ZFS

def METADATA_NAME_SIZE : ℕ := 52

abbrev FileId := UInt32 × UInt32

structure Link where
  parent : FileId
  name : Name
  deriving DecidableEq, Repr

/-- A valid `metadata` record. Of the flags those that matter here; `masterFh` is `none` where the handle
is undefined, `link` is the parent and the name if there is a name. -/
structure FileMetadata where
  modifiedTree : Bool
  shadow : Bool
  masterFh : Option ZfsFh
  type : FType
  link : Option Link
  deriving DecidableEq, Repr

structure LocalVolume where
  isMaster : Bool
  entries : List (Link × FileId)
  ftype : FileId → FType
  metadata : FileId → Option FileMetadata
  hardlinks : FileId → Option (List Link)
  shadowDir : FileId → FileId

/-! ## Names in the shadow -/

def hexDigit (n : ℕ) : UInt8 := if n < 10 then UInt8.ofNat (48 + n) else UInt8.ofNat (55 + n)

def hexDigits : ℕ → ℕ → List UInt8
  | 0, _ => []
  | k + 1, n => hexDigits k (n / 16) ++ [hexDigit (n % 16)]

/-- The file name that `build_shadow_metadata_path` makes. -/
def shadowName (id : FileId) (name : Name) : Name :=
  name.take (METADATA_NAME_SIZE - (2 * 8 + 2)) ++ (46 :: (hexDigits 8 id.1.toNat ++ hexDigits 8 id.2.toNat))

namespace LocalVolume

def shadowLink (v : LocalVolume) (id : FileId) (name : Name) : Link := ⟨v.shadowDir id, shadowName id name⟩

/-! ## Directories -/

def lstat (v : LocalVolume) (link : Link) : Option FileId := v.entries.lookup link

def readdir (v : LocalVolume) (dir : FileId) : List Name :=
  (v.entries.filter (·.1.parent = dir)).map (·.1.name)

def parent (v : LocalVolume) (dir : FileId) : Option FileId := (v.entries.find? (·.2 = dir)).map (·.1.parent)

/-- Whether `dir` is `top` or below it; the fuel bounds the depth. -/
def inside (v : LocalVolume) (top : FileId) : ℕ → FileId → Bool
  | 0, dir => dir = top
  | fuel + 1, dir => dir = top || (v.parent dir).any (v.inside top fuel)

def unlink (v : LocalVolume) (link : Link) : LocalVolume :=
  { v with entries := v.entries.filter (·.1 ≠ link) }

/-! ## Metadata -/

def setMetadata (v : LocalVolume) (id : FileId) (m : FileMetadata) : LocalVolume :=
  { v with metadata := Function.update v.metadata id (some m) }

def setHardlinks (v : LocalVolume) (id : FileId) (hl : Option (List Link)) : LocalVolume :=
  { v with hardlinks := Function.update v.hardlinks id hl }

def newMetadata (type : FType) : FileMetadata := ⟨false, false, none, type, none⟩

def lookupMetadata (v : LocalVolume) (id : FileId) (type : FType) (insert : Bool) :
    LocalVolume × Option FileMetadata :=
  match v.metadata id with
  | none => if insert then (v.setMetadata id (newMetadata type), some (newMetadata type)) else (v, none)
  | some m =>
    if m.type = .bad then
      if insert then
        let m := { newMetadata type with link := m.link }
        (v.setMetadata id m, some m)
      else (v, some { m with type := type })
    else if m.type ≠ type ∧ type ≠ .bad then
      -- `delete_metadata_of_created_file`
      ((v.setMetadata id (newMetadata type)).setHardlinks id none, some (newMetadata type))
    else (v, some m)

def readHardlinks (v : LocalVolume) (id : FileId) : Option FileMetadata → List Link
  | none => []
  | some m =>
    if m.type = .bad then []
    else
      match m.link with
      | some link => [link]
      | none => (v.hardlinks id).getD []

def hardlinkListInsert (hl : List Link) (link : Link) : List Link := if link ∈ hl then hl else hl ++ [link]

def writeHardlinks (v : LocalVolume) (id : FileId) (m : FileMetadata) (valid : Bool) (hl : List Link) :
    LocalVolume :=
  match hl with
  | [] => v.setHardlinks id none
  | link :: rest =>
    if rest ≠ [] ∨ METADATA_NAME_SIZE ≤ link.name.length then
      let v := v.setHardlinks id (some hl)
      if valid ∧ m.link = none then v else v.setMetadata id { m with link := none }
    else (v.setMetadata id { m with link := some link }).setHardlinks id none

def resetMetadata (v : LocalVolume) (id : FileId) : LocalVolume := v.setMetadata id (newMetadata .bad)

def deleteMetadata (v : LocalVolume) (id : FileId) (m : FileMetadata) (valid : Bool) (link : Link) : LocalVolume :=
  match v.hardlinks id with
  | some hl =>
    if hl.erase link ≠ [] then v.writeHardlinks id m valid (hl.erase link)
    else (v.setHardlinks id none).resetMetadata id
  | none => v.resetMetadata id

def nHardlinks (v : LocalVolume) (id : FileId) : ℕ :=
  (v.readHardlinks id (v.lookupMetadata id .bad false).2).length

def hardlinkReplace (v : LocalVolume) (id : FileId) (type : FType) (old new : Link) : LocalVolume :=
  let (v, m) := v.lookupMetadata id type false
  let hl := v.readHardlinks id m
  let valid := m.isSome
  let m := { m.getD (newMetadata type) with shadow := true }
  if old ∈ hl ∨ new ∉ hl.erase old then
    v.writeHardlinks id m valid (hardlinkListInsert (hl.erase old) new)
  else v

/-! ## Renaming -/

def localRenameBase (v : LocalVolume) (old new : Link) : Option LocalVolume :=
  (v.lstat old).bind fun id =>
    -- a directory cannot be moved below itself
    if v.ftype id = .dir ∧ v.inside id v.entries.length new.parent then none
    else
      match v.lstat new with
      | none =>
        let v := { v with entries := (v.unlink old).entries ++ [(new, id)] }
        some (v.hardlinkReplace id (v.ftype id) old new)
      | some other =>
        if (v.ftype other = .dir ∧ v.readdir other ≠ []) ∨ (v.ftype other = .dir ↔ v.ftype id ≠ .dir) then none
        else
          let v := if other = id then v else
            { v with entries := ((v.unlink old).unlink new).entries ++ [(new, id)] }
          let (v, m) := v.lookupMetadata other (v.ftype other) true
          let v := v.deleteMetadata other (m.getD (newMetadata (v.ftype other))) true new
          some (v.hardlinkReplace id (v.ftype id) old new)

end LocalVolume

end ZFS
