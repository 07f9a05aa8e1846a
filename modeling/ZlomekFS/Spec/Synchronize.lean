import ZlomekFS.Spec.FileHandle

/-! `synchronize_file` of `update.c`: the attributes of the cached file and of its master copy are
synchronised when one side changed them, then the versions decide between a conflict directory
and a scheduled update or reintegration. What the master and the local lookups answer is an
argument. -/

namespace ZFS

def InternalFh.updateFileClearUpdatedTree1 (fh : InternalFh) (version : ℕ) : InternalFh :=
  let localVersion :=
    if fh.metadata.masterVersion < fh.metadata.localVersion then
      if fh.metadata.localVersion ≤ version then u64 (version + 1) else fh.metadata.localVersion
    else
      if fh.metadata.localVersion < version then version else fh.metadata.localVersion
  let fh := { fh with
    metadata.updatedTree := true
    metadata.complete := false
    metadata.localVersion := localVersion
    metadata.masterVersion := version }.setAttrVersion
  if 0 < fh.users then
    { fh with updated := fh.updated.empty.add fh.modified }.flushIntervalTree .updated
  else fh

namespace InternalFh

@[simp] theorem updateFileClearUpdatedTree1_data (fh : InternalFh) (version : ℕ) :
    (fh.updateFileClearUpdatedTree1 version).data = fh.data := by
  unfold updateFileClearUpdatedTree1
  simp only
  split_ifs <;> rfl

@[simp] theorem updateFileClearUpdatedTree1_modified (fh : InternalFh) (version : ℕ) :
    (fh.updateFileClearUpdatedTree1 version).modified = fh.modified := by
  unfold updateFileClearUpdatedTree1
  simp only
  split_ifs <;> rfl

theorem updateFileClearUpdatedTree1_size (fh : InternalFh) (version : ℕ) :
    (fh.updateFileClearUpdatedTree1 version).attr.size = fh.attr.size := by
  unfold updateFileClearUpdatedTree1
  simp only
  split_ifs <;> rfl

@[simp] theorem updateFileClearUpdatedTree1_masterVersion (fh : InternalFh) (version : ℕ) :
    (fh.updateFileClearUpdatedTree1 version).metadata.masterVersion = version := by
  unfold updateFileClearUpdatedTree1
  simp only
  split_ifs <;> rfl

theorem updateFileClearUpdatedTree1_attr_version (fh : InternalFh) (version : ℕ) :
    (fh.updateFileClearUpdatedTree1 version).attr.version =
      (fh.updateFileClearUpdatedTree1 version).metadata.localVersion := by
  unfold updateFileClearUpdatedTree1
  simp only
  split_ifs <;> rfl

end InternalFh

structure Member where
  fh : ZfsFh
  attr : Fattr
  deriving DecidableEq, Repr

/-- Where the dentry of the local file is: under its own name in its directory, or in the conflict
directory of that name together with other files. -/
inductive Place
  | plain
  | conflict (others : List Member)
  deriving DecidableEq, Repr

/-- `create_conflict` for the dentry of the local file: an existing conflict directory is kept. -/
def Place.createConflict : Place → List Member
  | .plain => []
  | .conflict others => others

/-- `make_space_in_conflict_dir` and `add_file_to_conflict_dir` for a file that exists: a file of the
same node is replaced, the same file gets the new attributes. -/
def addFileToConflictDir (others : List Member) (fh : ZfsFh) (attr : Fattr) : List Member :=
  match others with
  | [] => [⟨fh, attr⟩]
  | m :: others =>
    if m.fh.sid = fh.sid then
      if m.fh = fh then ⟨fh, attr⟩ :: others else others ++ [⟨fh, attr⟩]
    else m :: addFileToConflictDir others fh attr

structure SyncEnv where
  setattr : ℤ × Fattr
  localSetattr : ℤ
  found : Bool
  /-- `lookup_remote_dentry_in_the_same_place`: the code, the file found there, its attributes. -/
  lookup : ℤ × ZfsFh × Fattr

structure SyncAttrRes where
  code : ℤ
  gone : Bool
  fh : InternalFh
  attr : Fattr

def finishAttributes (env : SyncEnv) (fh : InternalFh) (attr : Fattr) : SyncAttrRes :=
  if env.found then
    ⟨ZFS_OK, false, { fh with
      metadata.mode := getMode fh.attr.mode
      metadata.uid := fh.attr.uid
      metadata.gid := fh.attr.gid }, attr⟩
  else ⟨ZFS_OK, true, fh, attr⟩

/-- `synchronize_attributes` when exactly one side changed. -/
def synchronizeAttributes (env : SyncEnv) (fh : InternalFh) (attr : Fattr) (localChanged : Bool) : SyncAttrRes :=
  if localChanged then
    if metadataAttrEq fh.attr attr then
      ⟨ZFS_OK, false,
        { fh with metadata.mode := getMode attr.mode, metadata.uid := attr.uid, metadata.gid := attr.gid }, attr⟩
    else
      -- the buffer with the remote attributes is overwritten by the reply
      let attr := env.setattr.2
      let fh := { fh with metadata.masterVersion := attr.version }
      if env.setattr.1 ≠ ZFS_OK then ⟨env.setattr.1, false, fh, attr⟩
      else finishAttributes env fh attr
  else
    let sa : Sattr := { mode := attr.mode, uid := attr.uid, gid := attr.gid,
                        size := if attr.type = .reg then some attr.size else none }
    if env.localSetattr ≠ ZFS_OK then ⟨env.localSetattr, false, fh, attr⟩
    else finishAttributes env
      { fh with data := setattrData fh.data sa, attr := localSetattr fh sa } attr

def localChanged (fh : InternalFh) (attr : Fattr) : Bool :=
  metadataAttrChange fh.metadata fh.attr ||
    metadataSizeChange fh.attr attr && attr.version < fh.attr.version

def remoteChanged (fh : InternalFh) (attr : Fattr) : Bool :=
  metadataAttrChange fh.metadata attr ||
    metadataSizeChange fh.attr attr && fh.attr.version < attr.version

structure SyncRes where
  code : ℤ
  samePlace : Bool
  scheduled : Bool
  fh : InternalFh
  place : Place

def detectConflict (masterFh : ZfsFh) (fh : InternalFh) (attr : Fattr) (place : Place)
    (localChanged remoteChanged schedule : Bool) : SyncRes :=
  let attrConflict := localChanged && remoteChanged
  let dataConflict := fh.attr.type = .reg && fh.metadata.masterVersion < fh.attr.version &&
    fh.metadata.masterVersion < attr.version
  if !attrConflict && dataConflict && fh.reintegrating then ⟨ZFS_OK, true, false, fh, place⟩
  else if attrConflict || dataConflict then
    ⟨ZFS_OK, true, false, fh, .conflict (addFileToConflictDir place.createConflict masterFh attr)⟩
  else
    let fh := if fh.attr.type = .reg && fh.metadata.masterVersion < attr.version then
      fh.updateFileClearUpdatedTree1 attr.version else fh
    -- a conflict directory around the file is cancelled
    ⟨ZFS_OK, true, fh.attr.type = .reg && schedule, fh, .plain⟩

def synchronizePlace (env : SyncEnv) (masterFh : ZfsFh) (fh : InternalFh) (attr : Fattr) (place : Place)
    (localChanged remoteChanged schedule samePlace : Bool) : SyncRes :=
  if samePlace then detectConflict masterFh fh attr place localChanged remoteChanged schedule
  else
    let (r, file, resAttr) := env.lookup
    if r ≠ ZFS_OK then ⟨r, false, false, fh, place⟩
    else if file ≠ masterFh then ⟨ZFS_OK, false, false, fh, place⟩
    else detectConflict masterFh fh resAttr place localChanged (metadataAttrChange fh.metadata resAttr) schedule

/-- `synchronize_file`; `schedule` says whether an update or a reintegration is wanted. -/
def synchronizeFile (env : SyncEnv) (masterFh : ZfsFh) (fh : InternalFh) (attr : Fattr) (place : Place)
    (schedule samePlace : Bool) : SyncRes :=
  let lc := localChanged fh attr
  let rc := remoteChanged fh attr
  if lc ^^ rc then
    let s := synchronizeAttributes env fh attr lc
    if s.code ≠ ZFS_OK then ⟨s.code, false, false, s.fh, place⟩
    else if s.gone then ⟨ZFS_OK, false, false, s.fh, place⟩
    else synchronizePlace env masterFh s.fh s.attr place lc rc schedule samePlace
  else synchronizePlace env masterFh fh attr place lc rc schedule samePlace

end ZFS
