import ZlomekFS.Lib.Loops
import ZlomekFS.Spec.LocalVolume
import ZlomekFS.Spec.ReintegrateDir

/-! `update_dir` of `update.c` with `local_reintegrate_add` and `local_reintegrate_del` of `dir.c`. The
state is the directory that is updated: its names and what is known of the local files. Of the other names
of a file only the place matters, so that the deletion of a tree takes the names below it. System calls
succeed; what the master answers is an argument. -/

namespace ZFS
open Loops

/-- Where a file has a name outside of the directory. -/
inductive NamePlace
  | below (dir : ZfsFh) (name : Name)
  | away (name : Name)
  | shadow (name : Name)
  deriving DecidableEq, Repr

namespace NamePlace

def name : NamePlace → Name
  | below _ name | away name | shadow name => name

def isBelow (dir : ZfsFh) : NamePlace → Bool
  | below top _ => top = dir
  | _ => false

def isShadow : NamePlace → Bool
  | shadow _ => true
  | _ => false

end NamePlace

structure FileState where
  type : FType
  masterFh : Option ZfsFh
  version : ℕ
  masterVersion : ℕ
  modifiedTree : Bool
  others : List NamePlace
  empty : Bool
  deriving DecidableEq, Repr

namespace FileState

/-- What `delete_metadata` leaves after the last name. -/
def deleted : FileState := ⟨.bad, none, 1, 0, false, [], true⟩

/-- `delete_metadata` after a name was removed; `names` are those in the directory. One short name is
stored in the metadata, without the flags. -/
def deleteMetadata (names : List Name) (f : FileState) : FileState :=
  match names ++ f.others.map (·.name) with
  | [] => deleted
  | [name] => if name.length < METADATA_NAME_SIZE then { f with modifiedTree := false } else f
  | _ => f

/-- Whether `recursive_unlink_itself` moves the last name to the shadow. -/
def unsaved (f : FileState) : Bool := f.modifiedTree || f.masterFh = none

/-- `recursive_unlink_itself` for a name outside of the directory. -/
def unlinkOther (names : List Name) (f : FileState) (place : NamePlace) : FileState :=
  if names = [] ∧ f.others.length = 1 ∧ f.unsaved then { f with others := [.shadow place.name] }
  else { f with others := f.others.erase place }.deleteMetadata names

end FileState

structure LocalDir where
  fh : DirFh
  complete : Bool
  shadowTree : Bool
  entries : List (Name × ZfsFh)
  file : ZfsFh → FileState
  mapping : ZfsFh → Option ZfsFh

namespace LocalDir

/-! ## Names -/

def lookup (d : LocalDir) (name : Name) : Option ZfsFh := d.entries.lookup name

def names (d : LocalDir) (file : ZfsFh) : List Name := (d.entries.filter (·.2 = file)).map (·.1)

def nHardlinks (d : LocalDir) (file : ZfsFh) : ℕ := (d.names file).length + (d.file file).others.length

def setFile (d : LocalDir) (file : ZfsFh) (f : FileState) : LocalDir :=
  { d with file := Function.update d.file file f }

def removeName (d : LocalDir) (name : Name) : LocalDir := { d with entries := d.entries.filter (·.1 ≠ name) }

def addName (d : LocalDir) (name : Name) (file : ZfsFh) : LocalDir :=
  { d with entries := d.entries ++ [(name, file)] }

def moveToShadow (d : LocalDir) (name : Name) (file : ZfsFh) : LocalDir :=
  (d.removeName name).setFile file
    { d.file file with others := .shadow name :: (d.file file).others }

def unlink (d : LocalDir) (name : Name) (file : ZfsFh) : LocalDir :=
  let d := d.removeName name
  d.setFile file ((d.file file).deleteMetadata (d.names file))

def unlinkItself (d : LocalDir) (name : Name) (file : ZfsFh) : LocalDir :=
  if d.nHardlinks file = 1 ∧ (d.file file).unsaved then d.moveToShadow name file else d.unlink name file

/-- `recursive_unlink_contents` of a directory that the master knows. -/
def unlinkContents (d : LocalDir) (dir : ZfsFh) : LocalDir :=
  { d with file := fun file =>
      ((d.file file).others.filter (·.isBelow dir)).foldl (FileState.unlinkOther (d.names file)) (d.file file) }

def deleteTreeName (d : LocalDir) (name : Name) : LocalDir :=
  match d.lookup name with
  | none => d
  | some file =>
    if (d.file file).type = .dir then
      if (d.file file).masterFh = none then d.moveToShadow name file
      else (d.unlinkContents file).unlinkItself name file
    else d.unlinkItself name file

/-! ## Reintegration from the master -/

def journalDel (d : LocalDir) (name : Name) (file : ZfsFh) (f : FileState) : LocalDir :=
  let entry : JournalEntry :=
    ⟨.del, name, (file.dev, file.ino, file.gen), f.masterFh.getD undefinedFh, f.masterVersion⟩
  let journal := if (d.fh.localVolumeRoot ∧ specialName name) ∨ d.shadowTree then d.fh.journal
    else journalInsert d.fh.journal entry
  let version := u64 (d.fh.localVersion + 1)
  { d with fh := { d.fh with journal := journal, localVersion := version, attrVersion := version } }

/-- `local_reintegrate_del` without a journal, for the file that has the name. An empty directory is
deleted although the master still has it. -/
def localReintegrateDel (d : LocalDir) (name : Name) (file : ZfsFh) (destroy : Bool) : LocalDir :=
  if destroy ∨ 1 < d.nHardlinks file then d.deleteTreeName name
  else if (d.file file).type = .dir ∧ (d.file file).empty then
    (d.unlink name file).journalDel name file (d.file file)
  else d.moveToShadow name file

def localReintegrateAdd (d : LocalDir) (name : Name) (file : ZfsFh) : ℤ × LocalDir :=
  if d.nHardlinks file = 0 then (ENOENT, d)
  else
    let inShadow := (d.file file).others.any (·.isShadow)
    let d := d.deleteTreeName name
    if d.nHardlinks file = 0 then (ENOENT, d)
    else if inShadow then
      -- `move_from_shadow`
      (ZFS_OK, (d.addName name file).setFile file
        { d.file file with others := (d.file file).others.filter (!·.isShadow) })
    else if (d.file file).type = .dir then
      -- `local_rename_base`
      (ZFS_OK, ({ d with entries := d.entries.filter (·.2 ≠ file) }.addName name file).setFile file
        { d.file file with others := [] })
    else (ZFS_OK, d.addName name file)

def createLocalFh (d : LocalDir) (file : ZfsFh) (name : Name) (remote : ZfsFh) (attr : Fattr) : LocalDir :=
  { (d.addName name file).setFile file ⟨attr.type, some remote, attr.version, attr.version, false, [], true⟩ with
    mapping := Function.update d.mapping remote (some file) }

/-- `get_fh_mapping_for_master_fh`: the local file must still be the one of the slot. -/
def fhMapping (d : LocalDir) (remote : ZfsFh) : Option ZfsFh :=
  (d.mapping remote).filter fun file => (d.file file).masterFh = some remote

def createConflict (d : LocalDir) (name : Name) : LocalDir :=
  { d with fh.conflicts := if name ∈ d.fh.conflicts then d.fh.conflicts else d.fh.conflicts ++ [name] }

def setMetadata (d : LocalDir) (complete : Bool) (version : ℕ) : LocalDir :=
  { d with
    complete := complete
    fh := { d.fh with localVersion := version, masterVersion := version, attrVersion := version } }

end LocalDir

/-! ## The loops -/

/-- What `update_dir` learns from the master and from the local file system. -/
structure UpdateDirEnv where
  localReaddir : List Name
  remoteReaddir : Except Err (List Name)
  remoteLookup : Name → Except Err (ZfsFh × Fattr)
  remoteLookupAgain : Name → Except Err (ZfsFh × Fattr)
  filesAreTheSame : Name → Bool
  synchronizeFile : Name → ℤ
  remoteFileInfo : ZfsFh → ℤ
  newFile : Name → ZfsFh

/-- The variables of the loops: `remoteEntries` are the slots that are not cleared, `conflicts` the names
for which `have_conflicts` was set. -/
structure Updating where
  dir : LocalDir
  remoteEntries : List Name
  conflicts : List Name

namespace Updating

def clearRemote (u : Updating) (name : Name) : Updating := { u with remoteEntries := u.remoteEntries.erase name }

def createConflict (u : Updating) (name : Name) : Updating :=
  { u with dir := u.dir.createConflict name, conflicts := u.conflicts ++ [name] }

end Updating

def updateLocalEntry (env : UpdateDirEnv) (name : Name) (u : Updating) : ℤ × Updating :=
  if u.dir.fh.localVolumeRoot ∧ name = SHADOW_NAME then (ZFS_OK, u)
  else
    match u.dir.lookup name with
    | none => (ZFS_OK, u)
    | some file =>
      let f := u.dir.file file
      if name ∈ u.remoteEntries then
        match env.remoteLookup name with
        | .error r => (r, u)
        | .ok (remote, _) =>
          if f.masterFh = some remote then
            if env.filesAreTheSame name then
              if env.synchronizeFile name ≠ ZFS_OK then (env.synchronizeFile name, u)
              else (ZFS_OK, u.clearRemote name)
            else (ZFS_OK, { u with dir := u.dir.deleteTreeName name })
          else if f.version = f.masterVersion then (ZFS_OK, { u with dir := u.dir.deleteTreeName name })
          else (ZFS_OK, (u.createConflict name).clearRemote name)
      else
        match f.masterFh with
        | some masterFh =>
          if f.version = f.masterVersion then
            let destroy := env.remoteFileInfo masterFh ≠ ZFS_OK
            (ZFS_OK, { u with dir := u.dir.localReintegrateDel name file destroy })
          else (ZFS_OK, u.createConflict name)
        | none => (ZFS_OK, { u with dir := u.dir.deleteTreeName name })

def updateRemoteEntry (env : UpdateDirEnv) (name : Name) (u : Updating) : ℤ × Updating :=
  if ∃ e ∈ u.dir.fh.journal, e.key = (.del, name) then (ZFS_OK, u)
  else
    match env.remoteLookupAgain name with
    | .error r => if r.1 = ENOENT ∨ r.1 = ESTALE then (ZFS_OK, u) else (r, u)
    | .ok (remote, attr) =>
      match u.dir.fhMapping remote with
      | some file =>
        let (r, d) := u.dir.localReintegrateAdd name file
        (r, { u with dir := d })
      | none => (ZFS_OK, { u with dir := u.dir.createLocalFh (env.newFile name) name remote attr })

def updateLocalEntries (env : UpdateDirEnv) (remotes : List Name) (d : LocalDir) : ℤ × Updating :=
  forEach ZFS_OK (updateLocalEntry env) env.localReaddir ⟨d, remotes, []⟩

def updateEntries (env : UpdateDirEnv) (remotes : List Name) (d : LocalDir) : ℤ × Updating :=
  let (r, u) := updateLocalEntries env remotes d
  if r ≠ ZFS_OK then (r, u) else forEach ZFS_OK (updateRemoteEntry env) u.remoteEntries u

def LocalDir.upToDate (d : LocalDir) (version : ℕ) : Bool := d.fh.masterVersion = version && d.complete

def updateDir (env : UpdateDirEnv) (d : LocalDir) (version : ℕ) : ℤ × LocalDir :=
  if d.upToDate version then (ZFS_OK, d)
  else
    match env.remoteReaddir with
    | .error r => (r, d)
    | .ok remotes =>
      let (r, u) := updateEntries env remotes d
      (r, if u.dir.fh.journal = [] ∧ u.conflicts = [] then u.dir.setMetadata (r = ZFS_OK) version else u.dir)

/-! ## The caller -/

structure UpdateHow where
  metadata : Bool
  reintegrate : Bool
  update : Bool

structure UpdateEnv where
  synchronizeFile : ℤ
  lookupSynchronized : ℤ
  reintegrateDir : DirEnv
  lookupReintegrated : ℤ
  updateDir : UpdateDirEnv

def LocalDir.setCreated (d : LocalDir) (c : CreatedFile) : LocalDir :=
  { d.setFile c.fh { d.file c.fh with
      masterFh := some c.masterFh, version := c.metadata.localVersion, masterVersion := c.metadata.masterVersion } with
    mapping := Function.update d.mapping c.masterFh (some c.fh) }

def LocalDir.reintegrated (d : LocalDir) (res : DirRes) : LocalDir :=
  { res.created.foldl setCreated d with fh := res.dir }

/-- `update` of a directory up to the call of `update_dir`, or the code with which it returns before. -/
def beforeUpdateDir (env : UpdateEnv) (how : UpdateHow) (d : LocalDir) (attr : Fattr) :
    Option (Except ℤ (LocalDir × Fattr)) :=
  if how.metadata ∧ env.synchronizeFile ≠ ZFS_OK then some (.error env.synchronizeFile)
  else if how.metadata ∧ env.lookupSynchronized ≠ ZFS_OK then some (.error env.lookupSynchronized)
  else if how.reintegrate then
    (reintegrateDir env.reintegrateDir d.fh attr).map fun res =>
      if env.lookupReintegrated ≠ ZFS_OK then .error env.lookupReintegrated else .ok (d.reintegrated res, res.attr)
  else if how.update then some (.ok (d, attr))
  else some (.error ZFS_OK)

def update (env : UpdateEnv) (how : UpdateHow) (d : LocalDir) (attr : Fattr) : Option ℤ :=
  (beforeUpdateDir env how d attr).map fun
    | .error r => r
    | .ok (d, attr) => (updateDir env.updateDir d attr.version).1

end ZFS
