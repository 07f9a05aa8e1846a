import ZlomekFS.Spec.Journal
import ZlomekFS.Spec.Master

/-! `reintegrate_dir` of `update.c`: the entries of the journal of a directory are sent to the master one
after the other, then the versions of the directory are settled. What the local file system and the
master answer is an argument. -/

namespace ZFS

def ENOENT : ℤ := 2
def ESTALE : ℤ := 116

def ZFS_NAME : Name := [46, 122, 102, 115]
def SHADOW_NAME : Name := [46, 115, 104, 97, 100, 111, 119]

/-- What `local_lookup` finds; `masterFh` is `none` where the handle is undefined. -/
structure LocalFile where
  fh : ZfsFh
  attr : Fattr
  masterFh : Option ZfsFh
  metadata : Metadata

abbrev LookupAns := Except ℤ (ZfsFh × Fattr)

inductive DeleteAns
  | fails (r : Err)
  | missing
  | deleted

structure EntryAns where
  localLookup : Option LocalFile
  remoteLookup : LookupAns
  createRemoteFh : LookupAns
  flushMetadata : Bool
  remoteFileInfo : ℤ
  reintegrateAdd : ℤ
  deleteTreeName : DeleteAns
  localExists : Bool
  reintegrateDeletedDir : ℤ
  reintegrateDel : ℤ

structure DirEnv where
  entry : ℕ → EntryAns
  privilege : ℤ
  getattr : Except ℤ Fattr
  lookupMetadata : Bool
  reintegrateVer : ℤ

/-- The cached directory; `conflicts` are the names with a conflict directory. -/
structure DirFh where
  attrVersion : ℕ
  localVersion : ℕ
  masterVersion : ℕ
  journal : List JournalEntry
  localVolumeRoot : Bool
  conflicts : List Name

structure CreatedFile where
  fh : ZfsFh
  masterFh : ZfsFh
  metadata : Metadata

/-- The variables of the loop; `kept` are the entries left in the journal before the current one. -/
structure DirReint where
  kept : List JournalEntry
  versionIncrease : ℕ
  flushJournal : Bool
  conflicts : List Name
  created : List CreatedFile

inductive Flow
  | removed
  | keep
  | out
  | abort
  deriving DecidableEq, Repr

namespace DirReint

def cancelConflict (s : DirReint) (name : Name) : DirReint :=
  { s with conflicts := s.conflicts.filter (· ≠ name) }

def createConflict (s : DirReint) (name : Name) : DirReint :=
  { s with conflicts := if name ∈ s.conflicts then s.conflicts else s.conflicts ++ [name] }

def counted (s : DirReint) : DirReint := { s with versionIncrease := u64 (s.versionIncrease + 1) }

end DirReint

def specialName (name : Name) : Bool := name = ZFS_NAME || name = SHADOW_NAME

/-- Whether an entry for a new file ends the conflict on its name. -/
def addCancelsConflict (l : LocalFile) : LookupAns → Bool
  | .ok (file, attr) => l.masterFh = some file &&
      (!metadataAttrChange l.metadata l.attr || !metadataAttrChange l.metadata attr) &&
      (l.attr.type ≠ .reg || l.attr.version = l.metadata.masterVersion || attr.version = l.metadata.masterVersion)
  | .error _ => true

def createdMetadata (m : Metadata) (version : ℕ) : Metadata :=
  { m with
    masterVersion := version
    localVersion :=
      if m.modifiedTree then if m.localVersion ≤ version then u64 (version + 1) else m.localVersion
      else if m.localVersion < version then version else m.localVersion }

def reintegrateNew (ans : EntryAns) (l : LocalFile) (s : DirReint) : DirReint × Flow :=
  match l.masterFh with
  | none =>
    match ans.createRemoteFh with
    | .error _ => (s, .keep)
    | .ok (file, attr) =>
      let s := s.counted
      if ans.flushMetadata then
        ({ s with created := s.created ++ [⟨l.fh, file, createdMetadata l.metadata attr.version⟩] }, .removed)
      else (s, .keep)
  | some _ =>
    if ans.remoteFileInfo = ZFS_OK then
      if ans.reintegrateAdd = ZFS_OK then (s.counted, .removed) else (s, .keep)
    else if ans.remoteFileInfo = ENOENT ∨ ans.remoteFileInfo = ESTALE then
      match ans.deleteTreeName with
      | .fails _ => (s, .out)
      | .missing => (s, .removed)
      -- the entry for the deletion cancels the current entry out, which then is not found any more
      | .deleted => (s, .abort)
    else (s, .out)

def reintegrateAddEntry (ans : EntryAns) (e : JournalEntry) (s : DirReint) : DirReint × Flow :=
  match ans.localLookup with
  | none => (s, .removed)
  | some l =>
    let s := if addCancelsConflict l ans.remoteLookup then s.cancelConflict e.name else s
    match ans.remoteLookup with
    | .ok (file, _) => if l.masterFh = some file then (s, .removed) else (s.createConflict e.name, .keep)
    | .error r => if r = ENOENT ∨ r = ESTALE then reintegrateNew ans l s else (s, .out)

def reintegrateDelEntry (ans : EntryAns) (e : JournalEntry) (s : DirReint) : DirReint × Flow :=
  if !ans.localExists ∧ ans.reintegrateDeletedDir ≠ ZFS_OK then (s, .out)
  else
    match ans.remoteLookup with
    | .ok (file, attr) =>
      if file = e.masterFh then
        if !ans.localExists ∧ attr.type = .reg ∧ e.masterVersion ≠ attr.version then (s.createConflict e.name, .keep)
        else if ans.reintegrateDel = ZFS_OK then (s.counted, .removed)
        else (s, .keep)
      else (s.cancelConflict e.name, .removed)
    | .error r =>
      let s := s.cancelConflict e.name
      if r = ENOENT ∨ r = ESTALE then (s, .removed) else (s, .out)

def reintegrateEntry (root : Bool) (ans : EntryAns) (e : JournalEntry) (s : DirReint) : DirReint × Flow :=
  if root ∧ specialName e.name then (s, .removed)
  else
    match e.oper with
    | .add => reintegrateAddEntry ans e s
    | .del => reintegrateDelEntry ans e s

/-- The loop over the entries from the `k`-th on; the flag says whether it came to the end of the journal. -/
def reintegrateEntries (env : DirEnv) (root : Bool) : ℕ → List JournalEntry → DirReint → Option (DirReint × Bool)
  | _, [], s => some (s, true)
  | k, e :: rest, s =>
    match reintegrateEntry root (env.entry k) e s with
    | (s, .removed) => reintegrateEntries env root (k + 1) rest { s with flushJournal := true }
    | (s, .keep) => reintegrateEntries env root (k + 1) rest { s with kept := s.kept ++ [e] }
    | (s, .out) => some ({ s with kept := s.kept ++ e :: rest }, false)
    | (_, .abort) => none

structure DirRes where
  dir : DirFh
  created : List CreatedFile
  attr : Fattr
  versionInc : Option ℕ
  flushed : Bool

/-- The versions of the directory when the remote one has the version `remote` after
`versionIncrease` changes from here; with them the version the master shall get. -/
def DirFh.settle (dir : DirFh) (remote versionIncrease : ℕ) : DirFh × ℕ :=
  if remote = u64 (dir.masterVersion + versionIncrease) then
    let version := if remote < dir.localVersion then dir.localVersion else remote
    ({ dir with localVersion := version, masterVersion := version, attrVersion := version }, version)
  else
    let masterVersion := u64 (dir.masterVersion + versionIncrease)
    let localVersion :=
      if dir.journal ≠ [] then
        let v := if dir.localVersion ≤ masterVersion then u64 (masterVersion + 1) else dir.localVersion
        if v ≤ remote then u64 (remote + 1) else v
      else
        let v := if dir.localVersion < masterVersion then masterVersion else dir.localVersion
        if v < remote then remote else v
    ({ dir with localVersion := localVersion, masterVersion := masterVersion, attrVersion := localVersion }, remote)

/-- The part of `reintegrate_dir` after the loop; the remote attributes of the caller are overwritten by
`remote_getattr`, and `remote_reintegrate_ver` changes the cached version before it knows the answer. -/
def DirFh.finish (env : DirEnv) (dir : DirFh) (attr : Fattr) (versionIncrease : ℕ) : DirFh × Fattr × Option ℕ :=
  if versionIncrease = 0 ∨ env.privilege ≠ ZFS_OK then (dir, attr, none)
  else
    match env.getattr with
    | .error _ => (dir, attr, none)
    | .ok attr =>
      let (dir, version) := if env.lookupMetadata then dir.settle attr.version versionIncrease else (dir, attr.version)
      let inc := sub64 version attr.version
      ({ dir with attrVersion := u64 (dir.attrVersion + inc) },
        if env.reintegrateVer = ZFS_OK then { attr with version := version } else attr, some inc)

/-- `reintegrate_dir`; it returns `ZFS_OK` unless the daemon aborts. -/
def reintegrateDir (env : DirEnv) (dir : DirFh) (attr : Fattr) : Option DirRes :=
  (reintegrateEntries env dir.localVolumeRoot 0 dir.journal ⟨[], 0, false, dir.conflicts, []⟩).map fun (s, atEnd) =>
    let dir := { dir with journal := s.kept, conflicts := s.conflicts }
    let (dir, attr, inc) := if atEnd then dir.finish env attr s.versionIncrease else (dir, attr, none)
    ⟨dir, s.created, attr, inc, s.flushJournal⟩

end ZFS
