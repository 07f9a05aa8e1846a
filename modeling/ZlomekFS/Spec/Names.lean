import ZlomekFS.Lib.Runs
import ZlomekFS.Spec.Metadata

/-! Creating, linking, renaming and removing files of a cached volume, `fs-entities/dir/dir.c` and `local_create` in
`fs-entities/file/file.c`: the names on the disk, the list of hardlinks of each file and the journal of each
directory. The directories are locked, so each operation is one step. System calls succeed unless their guard says
otherwise. -/

namespace ZFS.Meta

abbrev LocalFh := UInt32 × UInt32 × UInt32

def Metadata.localFh (m : Metadata) : LocalFh := (m.dev, m.ino, m.gen)

def Metadata.journalEntry (m : Metadata) (name : Name) (oper : JournalOperation) : JournalEntry where
  oper := oper
  name := name
  file := m.localFh
  masterFh := m.masterFh
  masterVersion := m.masterVersion.toNat

namespace Tree

variable (t : Tree)

def lstat (link : Link) : Option FileId := t.entries.lookup link

def parent (dir : FileId) : Option FileId := (t.entries.find? (·.2 = dir)).map (·.1.parent)

/-- Whether `dir` is `top` or below it; the fuel bounds the depth. -/
def inside (top : FileId) : ℕ → FileId → Bool
  | 0, dir => dir = top
  | fuel + 1, dir => dir = top || (t.parent dir).any (inside top fuel)

end Tree

structure NameState where
  root : FileId
  vol : Volume
  tree : Tree
  ftype : FileId → FType
  journal : FileId → List JournalEntry
  /-- The names in the directories at the last synchronisation, with the local file handles. -/
  synced : FileId → Name → Option LocalFh

inductive NameEvent
  | create (id : FileId) (st : Status) (link : Link)
  | link (id : FileId) (st : Status) (link : Link)
  | unlink (st : Status) (link : Link)
  | rename (stNew stOld : Status) (old new : Link)

namespace NameState

variable (s : NameState)

def IsDir (dir : FileId) : Prop := dir = s.root ∨ s.tree.Exists dir ∧ s.ftype dir = .dir

instance (dir : FileId) : Decidable (s.IsDir dir) := inferInstanceAs (Decidable (_ ∨ _))

def addJournalEntry (m : Metadata) (link : Link) (oper : JournalOperation) : NameState :=
  let entries := journalInsert (s.journal link.parent) (m.journalEntry link.name oper)
  { s with journal := Function.update s.journal link.parent entries }

/-- What `rename` allows: directories take the place of empty directories, and no directory moves below itself. -/
def CanReplace (id other : FileId) : Prop :=
  (s.ftype id = .dir ↔ s.ftype other = .dir) ∧ ∀ e ∈ s.tree.entries, e.1.parent ≠ other

instance (id other : FileId) : Decidable (s.CanReplace id other) := inferInstanceAs (Decidable (_ ∧ _))

/-- The file with the new name, if there is one, can be overwritten. -/
def CanOverwrite (stOld : Status) (id : FileId) (new : Link) : Prop :=
  ∀ other ∈ s.tree.lstat new, stOld.type = s.ftype other ∧ (other = id ∨ s.CanReplace id other)

instance (stOld : Status) (id : FileId) (new : Link) : Decidable (s.CanOverwrite stOld id new) :=
  decidable_of_iff
    ((s.tree.lstat new).all (fun other => stOld.type = s.ftype other ∧ (other = id ∨ s.CanReplace id other)) = true)
    (by simp only [Option.all_eq_true, decide_eq_true_eq]; exact Iff.rfl)

/-- The names after `rename`: there is nothing to do if both names are those of one file. -/
def renamed (old new : Link) (id : FileId) : Tree :=
  if s.tree.lstat new = some id then s.tree
  else
    let t := (s.tree.remove old).remove new
    if h : t.Free new then t.add new id h else t

/-- `local_rename_base`, with the metadata of the overwritten file and of the renamed one. -/
def localRenameBase (stNew stOld : Status) (old new : Link) (id : FileId) : NameState × Option Metadata × Metadata :=
  let (vol, metaOld) :=
    match s.tree.lstat new with
    | none => (s.vol, none)
    | some other =>
      match s.vol.lookupMetadata other stOld true with
      | (vol, some m) => (vol.deleteMetadata m other (some new), some m)
      | (vol, none) => (vol, none)
  let (vol, metaNew) := vol.metadataHardlinkReplace id stNew old new false
  ({ s with vol := vol, tree := s.renamed old new id }, metaOld, metaNew)

def renameJournal (old new : Link) (metaOld : Option Metadata) (metaNew : Metadata) : NameState :=
  let s := s.addJournalEntry metaNew old .del
  let s := match metaOld with
    | some m => s.addJournalEntry m new .del
    | none => s
  s.addJournalEntry metaNew new .add

def step : NameEvent → Option NameState
  | .create id st link =>
    if h : (¬ s.tree.Exists id ∧ id ≠ s.root) ∧ st.type ≠ .bad ∧ st.type ≠ .dir ∧ s.IsDir link.parent ∧ s.tree.Free link then
      match s.vol.lookupMetadata id st true with
      | (vol, some m) =>
        let (vol, m) := if m.masterFh = undefinedFh then (vol, m) else vol.deleteMetadataOfCreatedFile m
        let s := { s with
          vol := (vol.metadataHardlinkInsert id st link).1
          tree := s.tree.add link id h.2.2.2.2
          ftype := Function.update s.ftype id st.type }
        some (s.addJournalEntry m link .add)
      | _ => none
    else none
  | .link id st link =>
    if h : s.tree.Exists id ∧ st.type = s.ftype id ∧ s.ftype id ≠ .dir ∧ s.IsDir link.parent ∧ s.tree.Free link then
      let (vol, m) := s.vol.metadataHardlinkInsert id st link
      let s := { s with vol := vol, tree := s.tree.add link id h.2.2.2.2 }
      some (s.addJournalEntry m link .add)
    else none
  | .unlink st link =>
    match s.tree.lstat link with
    | none => none
    | some id =>
      if st.type = s.ftype id ∧ s.ftype id ≠ .dir then
        match s.vol.lookupMetadata id st true with
        | (vol, some m) =>
          let s := { s with vol := vol.deleteMetadata m id (some link), tree := s.tree.remove link }
          some (s.addJournalEntry m link .del)
        | _ => none
      else none
  | .rename stNew stOld old new =>
    match s.tree.lstat old with
    | none => none
    | some id =>
      if stNew.type = s.ftype id ∧ s.IsDir new.parent ∧ new.name ≠ [] ∧
          ¬ (s.ftype id = .dir ∧ s.tree.inside id s.tree.entries.length new.parent) ∧ s.CanOverwrite stOld id new then
        let (s, metaOld, metaNew) := s.localRenameBase stNew stOld old new id
        some (s.renameJournal old new metaOld metaNew)
      else none

end NameState

/-! ## What the lists and the journals are for -/

def Volume.recorded (v : Volume) (id : FileId) : List Link :=
  match v.record id with
  | none => []
  | some m =>
    if m.type = .bad then []
    else if m.link.name ≠ [] ∨ m.link.parent = (0, 0) then [m.link]
    else (v.hardlinks id).getD []

def Volume.Stored (v : Volume) (id : FileId) (m : Metadata) (hl : List Link) : Prop :=
  ((m.link.name ≠ [] ∨ m.link.parent = (0, 0)) ∧ hl = [m.link] ∧ v.hardlinks id = none) ∨
    (¬ (m.link.name ≠ [] ∨ m.link.parent = (0, 0)) ∧ hl = (v.hardlinks id).getD [] ∧ v.hardlinks id ≠ some [])

def applyHandle (D : Name → Option LocalFh) (e : JournalEntry) : Name → Option LocalFh :=
  Function.update D e.name (match e.oper with
    | .add => some e.file
    | .del => none)

namespace NameState

variable (s : NameState)

def names (dir : FileId) (name : Name) : Option LocalFh :=
  (s.tree.lstat ⟨dir, name⟩).bind fun id => (s.vol.record id).map Metadata.localFh

/-- The lists of hardlinks are those of the disk, and the journals lead from the last synchronisation to it. -/
structure Consistent : Prop where
  links : ∀ id link, link ∈ s.vol.recorded id ↔ (link, id) ∈ s.tree.entries
  journal : ∀ dir, s.IsDir dir → (s.journal dir).foldl applyHandle (s.synced dir) = s.names dir

/-- The volume after a synchronisation: the metadata and the lists of hardlinks are those of the files, and the
journals are empty. -/
structure Synced : Prop where
  key : ∀ id m, s.vol.record id = some m → m.id = id
  live : ∀ id, s.tree.Exists id → ∃ m hl, s.vol.record id = some m ∧ m.type = s.ftype id ∧ m.type ≠ .bad ∧
    s.vol.Stored id m hl ∧ hl.Nodup ∧ ∀ link, link ∈ hl ↔ (link, id) ∈ s.tree.entries
  dead : ∀ id, ¬ s.tree.Exists id → s.vol.hardlinks id = none ∧
    ∀ m, s.vol.record id = some m → m.link = noLink ∧ (id ≠ s.root → m.type = .bad)
  root : ¬ s.tree.Exists s.root
  journal : ∀ dir, s.journal dir = [] ∧ s.synced dir = s.names dir

def RenameSafe : NameEvent → Prop
  | .rename _ _ old new => s.tree.lstat new ≠ s.tree.lstat old
  | _ => True

instance : ∀ e, Decidable (s.RenameSafe e)
  | .rename _ _ old new => inferInstanceAs (Decidable (s.tree.lstat new ≠ s.tree.lstat old))
  | .create _ _ _ | .link _ _ _ | .unlink _ _ => inferInstanceAs (Decidable True)

/-- A cached volume without files; the root has the inode 2. -/
def empty : NameState where
  root := (1, 2)
  vol := ⟨true, fun _ => none, fun _ => none, fun _ => none⟩
  tree := ⟨[], List.nodup_nil, fun _ h => absurd h List.not_mem_nil⟩
  ftype _ := .dir
  journal _ := []
  synced _ _ := none

end NameState

end ZFS.Meta
