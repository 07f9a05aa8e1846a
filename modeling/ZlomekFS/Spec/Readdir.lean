import ZlomekFS.Lib.Cursors
import ZlomekFS.Spec.Messages
import ZlomekFS.Spec.VersionFiles

/-! `zfs_readdir` of `file.c` for directories that are listed locally: `read_virtual_dir`, `read_conflict_dir` and
`local_readdir`, with the table of `version.c` for a directory of the past, and the functions that fill the buffer. The
directory does not change, so no version expires and `version_dirty` is not set; it has fewer than 2^31 entries. -/

namespace ZFS.Readdir
open Cursors Protocol
open VersionFiles (AT DOT atoi)

def EINVAL : ℤ := 22

def ZFS_MAX_DIR_ENTRIES : ℕ := ZFS_MAXDATA / (4 * 4)

def VERSION_LIST_VERSIONS_STAMP : ℤ := 1

structure Entry where
  ino : UInt32
  cookie : ℤ
  name : Name
  deriving DecidableEq

def Entry.item (e : Entry) : UInt32 × Name := (e.ino, e.name)

abbrev Filldir := List Entry → Entry → Bool

/-! ## Filling -/

def encodeEntry (e : Entry) : Coding Unit := do
  encodeUint32 e.ino
  encodeInt32 (Int32.ofInt e.cookie)
  encodeString (⟨e.name, le_rfl⟩ : Limited e.name.length)

/-- `filldir_encode` for a buffer that was at `dc`; what it refuses leaves no trace. -/
def filldirEncode (dc : DC) (count : ℕ) : Filldir := fun list e =>
  match encodeEntry e (list.foldl (fun dc e => (encodeEntry e dc).2) dc) with
  | (some (), dc') => dc'.curLength - dc.curLength ≤ count
  | (none, _) => false

def filldirArray : Filldir := fun list _ => list.length < ZFS_MAX_DIR_ENTRIES

/-! ## Directories -/

structure VirtualDir where
  ino : UInt32
  parentIno : UInt32
  subdirs : List (UInt32 × Name)

def VirtualDir.items (vd : VirtualDir) : List (UInt32 × Name) :=
  (vd.ino, [DOT]) :: (vd.parentIno, [DOT, DOT]) :: vd.subdirs

def VirtualDir.hasName (vd : VirtualDir) (name : Name) : Bool := vd.subdirs.any (·.2 = name)

structure LocalEntry where
  ino : UInt32
  /-- What `telldir` returns after it. -/
  position : ℤ
  name : Name
  mtime : Option ℤ

/-- The `long` is cut to an `int32_t`. -/
def LocalEntry.cookie (e : LocalEntry) : ℤ := e.position.bmod (2 ^ 32)

structure Item where
  ino : UInt32
  name : Name
  stamp : ℤ

structure View where
  volumeRoot : Bool
  fromThisNode : Bool
  versioning : Bool
  verdisplay : Bool
  dirstamp : ℤ
  displayFile : Bool
  /-- `strftime` with `VERSION_TIMESTAMP` -/
  timestamp : ℤ → Name

/-- Where `seekdir` leads is known for 0 and for the positions of the entries only. -/
structure LocalDir where
  entries : List LocalEntry
  view : View
  seek : ℤ → ℕ
  slots : List Item → List Item
  seek_zero : seek 0 = 0
  seek_position : ∀ k : Fin entries.length, seek (entries.get k).position = k + 1
  slots_perm : ∀ table, (slots table).Perm table

/-- `zfs_seekdir`: the entries behind a position. -/
def LocalDir.seekdir (d : LocalDir) (position : ℤ) : List LocalEntry := d.entries.drop (d.seek position)

inductive Body
  | none
  | conflict (ino parentIno : UInt32) (members : List (UInt32 × Name))
  | inode (dir : LocalDir)

structure Directory where
  virtual : Option VirtualDir
  body : Body
  somewhere : virtual = none → body ≠ .none

/-! ## Names of a local directory -/

def fillDirhtab (table : List Item) (new : Item) : List Item :=
  if table.any (·.name = new.name) then
    table.map fun x => if x.name = new.name ∧ new.stamp ≠ 0 ∧ new.stamp < x.stamp then new else x
  else table ++ [new]

namespace View

variable (v : View)

/-- `SPECIAL_NAME_P` in the root of a volume: `.zfs` and `.shadow`. -/
def special (name : Name) : Bool :=
  v.volumeRoot && (name = [46, 122, 102, 115] || (name = [46, 115, 104, 97, 100, 111, 119] && !v.fromThisNode))

def listVersions : Bool := v.dirstamp = VERSION_LIST_VERSIONS_STAMP

/-- The directory is one of the past, whose entries go to a table. -/
def past : Bool := v.versioning && v.dirstamp ≠ 0 && !v.listVersions

def localVerdisplay : Bool := v.verdisplay || (v.versioning && (v.listVersions || v.displayFile))

inductive Kind
  | hidden
  | plain
  /-- A version with its name, and what is left in `d_name`. -/
  | version (vername left : Name)

def kind (name : Name) : Kind :=
  if v.special name then .hidden
  else if !v.versioning then .plain
  else
    match name.span (· ≠ AT) with
    | (_, []) => if v.listVersions then .hidden else .plain
    | (base, _ :: stamp) =>
      -- interval files are skipped
      if DOT ∈ stamp then .hidden
      else if v.localVerdisplay then .version (base ++ AT :: v.timestamp (atoi stamp)) (base ++ [AT])
      else .hidden

/-- Names that the virtual directory has, and those of the directory itself. -/
def behind (vd : Option VirtualDir) (name : Name) : Bool :=
  vd.any fun vd => name = [DOT] || name = [DOT, DOT] || vd.hasName name

/-- The body of the loop in `local_readdir`; the state is `is_vername` with `vername`. -/
def shows (vd : Option VirtualDir) (s : Bool × Name) (e : LocalEntry) : (Bool × Name) × Option Entry :=
  match v.kind e.name with
  | .hidden => (s, none)
  | .plain =>
    if behind vd e.name then (s, none)
    else (s, some ⟨e.ino, e.cookie, if s.1 then s.2 else e.name⟩)
  | .version vername left =>
    if behind vd left then ((true, vername), none) else ((true, vername), some ⟨e.ino, e.cookie, vername⟩)

/-- The rest of the body where `store` is set; the name has no `@` any more. -/
def store (vd : Option VirtualDir) (table : List Item) (e : LocalEntry) (name : Name) (stamp : ℤ) :
    List Item × Option Entry :=
  if behind vd name then (table, none)
  else if name = [DOT] ∨ name = [DOT, DOT] then (table, some ⟨e.ino, e.cookie, name⟩)
  else (fillDirhtab table ⟨e.ino, name, stamp⟩, none)

def stores (vd : Option VirtualDir) (table : List Item) (e : LocalEntry) : List Item × Option Entry :=
  if v.special e.name then (table, none)
  else if e.mtime.any (v.dirstamp < ·) then (table, none)
  else
    match e.name.span (· ≠ AT) with
    | (_, []) => store vd table e e.name 0
    | (base, _ :: stamp) =>
      if DOT ∈ stamp then (table, none)
      else if atoi stamp < v.dirstamp then (table, none)
      else store vd table e base (atoi stamp)

end View

/-! ## Reading -/

def counting (hidden : Name → Bool) (step : ℤ) (cookie : ℤ) (x : UInt32 × Name) : ℤ × Option Entry :=
  if hidden x.2 then (cookie, none) else (cookie + step, some ⟨x.1, cookie + step, x.2⟩)

/-- `read_virtual_dir`: the cookie counts down from 0, and the items are entered where it says. -/
def readVirtualDir (filldir : Filldir) (vd : VirtualDir) (cookie : ℤ) (list : List Entry) : List Entry × Bool :=
  if 0 < cookie then (list, true)
  else (scan (counting (fun _ => false) (-1)) filldir cookie (vd.items.drop (-cookie).toNat) list).2

def readMembers (filldir : Filldir) (hidden : Name → Bool) (items : List (UInt32 × Name)) (cookie : ℤ)
    (list : List Entry) : List Entry × Bool :=
  (scan (counting hidden 1) filldir cookie (items.drop cookie.toNat) list).2

/-- `version_readdir_from_dirhtab`: what is left in the table, and the list. -/
def readFromDirhtab (filldir : Filldir) (cookie : ℤ) : List Item → List Entry → List Item × List Entry
  | [], list => ([], list)
  | x :: table, list =>
    if filldir list ⟨x.ino, cookie, x.name⟩ then readFromDirhtab filldir cookie table (list ++ [⟨x.ino, cookie, x.name⟩])
    else (x :: table, list)

structure State where
  cookie : ℤ
  dirhtab : Option (List Item)

structure Result where
  code : ℤ
  entries : List Entry
  eof : Bool
  dirhtab : Option (List Item)

/-- `local_readdir` after the virtual directory, which left `list` and `eof`; `none` where it follows a table that is
`NULL`. -/
def localReaddir (dir : LocalDir) (vd : Option VirtualDir) (filldir : Filldir) (s : State) (list : List Entry)
    (eof : Bool) : Option Result :=
  if dir.view.past then
    if s.cookie = 0 then
      let (table, list, all) := scan (dir.view.stores vd) filldir [] (dir.seekdir 0) list
      some ⟨ZFS_OK, list, all, some (dir.slots table)⟩
    else
      s.dirhtab.map fun table =>
        let (table, list) := readFromDirhtab filldir s.cookie table list
        ⟨ZFS_OK, list, eof, some table⟩
  else
    let (_, list, all) := scan (dir.view.shows vd) filldir (false, []) (dir.seekdir (max s.cookie 0)) list
    some ⟨ZFS_OK, list, all, s.dirhtab⟩

namespace Directory

variable (d : Directory)

def zfsReaddir (filldir : Filldir) (s : State) : Option Result :=
  match d.virtual, d.body with
  | none, .none => some ⟨ZFS_OK, [], false, s.dirhtab⟩
  | none, .conflict ino parentIno members =>
    let (list, all) :=
      readMembers filldir (fun _ => false) ((ino, [DOT]) :: (parentIno, [DOT, DOT]) :: members) (max s.cookie 0) []
    some ⟨if !all && list.length = 0 then EINVAL else ZFS_OK, list, all, s.dirhtab⟩
  | none, .inode dir => localReaddir dir none filldir s [] false
  | some vd, body =>
    let (list, all) := readVirtualDir filldir vd s.cookie []
    if !all then some ⟨if list.length = 0 then EINVAL else ZFS_OK, list, false, s.dirhtab⟩
    else
      match body with
      | .none => some ⟨ZFS_OK, list, s.cookie ≤ 0, s.dirhtab⟩
      | .conflict ino parentIno members =>
        let (list, all) :=
          readMembers filldir vd.hasName ((ino, [DOT]) :: (parentIno, [DOT, DOT]) :: members) (max s.cookie 2) list
        some ⟨if !all && list.length = 0 then EINVAL else ZFS_OK, list, all, s.dirhtab⟩
      | .inode dir => localReaddir dir (some vd) filldir s list (s.cookie ≤ 0)

/-- The state after the first calls, each of which passes the last cookie back, and all the entries they gave. -/
def readdirs (filldir : ℕ → Filldir) : ℕ → Option (State × List Entry)
  | 0 => some (⟨0, none⟩, [])
  | n + 1 => do
    let (s, list) ← readdirs filldir n
    let r ← d.zfsReaddir (filldir n) s
    return (⟨(r.entries.getLast?.map Entry.cookie).getD s.cookie, r.dirhtab⟩, list ++ r.entries)

end Directory

/-! ## What a listing is for -/

/-- `name` is the file with the version of `base` that was replaced at `stamp`. -/
structure VersionOf (name base stamp : Name) : Prop where
  eq : name = base ++ AT :: stamp
  first : AT ∉ base
  whole : DOT ∉ stamp

namespace View

variable (v : View)

def Displays : Prop := v.verdisplay = true ∨ v.dirstamp = VERSION_LIST_VERSIONS_STAMP ∨ v.displayFile = true

structure Displayed (name base stamp : Name) : Prop where
  versioning : v.versioning = true
  displays : v.Displays
  version : VersionOf name base stamp

/-- Names of the system in the root of a volume: `.zfs`, and for other nodes `.shadow`. -/
def Private (name : Name) : Prop :=
  v.volumeRoot = true ∧
    (name = [46, 122, 102, 115] ∨ name = [46, 115, 104, 97, 100, 111, 119] ∧ v.fromThisNode = false)

inductive Own : Name → Name → Prop
  | unversioned {name : Name} (h : v.versioning = false) : Own name name
  | current {name : Name} (hv : v.versioning = true) (hlist : v.dirstamp ≠ VERSION_LIST_VERSIONS_STAMP)
      (h : AT ∉ name) : Own name name
  | version {name base stamp : Name} (h : v.Displayed name base stamp) : Own name (base ++ AT :: v.timestamp (atoi stamp))

def Covered (vd : Option VirtualDir) (name : Name) : Prop := ∃ w ∈ vd, name ∈ w.items.map Prod.snd

structure SeenAs (vd : Option VirtualDir) (name shown : Name) : Prop where
  own : v.Own name shown
  system : ¬ v.Private name
  free : ¬ Covered vd shown

/-- At the time of a directory of the past `name` was the file of this entry. -/
structure Existed (vd : Option VirtualDir) (e : LocalEntry) (name : Name) : Prop where
  time : ∀ t ∈ e.mtime, t ≤ v.dirstamp
  was : AT ∉ e.name ∧ name = e.name ∨ ∃ stamp, VersionOf e.name name stamp ∧ v.dirstamp ≤ atoi stamp
  system : ¬ v.Private e.name
  free : ¬ Covered vd name

open Classical in
noncomputable def seen (vd : Option VirtualDir) (e : LocalEntry) : Option (UInt32 × Name) :=
  if h : ∃ shown, v.SeenAs vd e.name shown then some (e.ino, h.choose) else none

end View

namespace Directory

variable (d : Directory)

/-- A listing has the entries of the virtual directory and those behind it, except for hidden ones, each once. -/
def Lists (list : List (UInt32 × Name)) : Prop :=
  match d.virtual, d.body with
  | none, .none => list = []
  | none, .conflict ino parentIno members => list.Perm ((ino, [DOT]) :: (parentIno, [DOT, DOT]) :: members)
  | some vd, .none => list.Perm vd.items
  | some vd, .conflict _ _ members => list.Perm (vd.items ++ members.filter fun m => m.2 ∉ vd.subdirs.map Prod.snd)
  | vd, .inode dir =>
    if dir.view.past then
      ∃ own : List (UInt32 × Name), list.Perm (vd.elim [] VirtualDir.items ++ own) ∧ (own.map Prod.snd).Nodup ∧
        (∀ x ∈ own, ∃ e ∈ dir.entries, e.ino = x.1 ∧ dir.view.Existed vd e x.2) ∧
        ∀ e ∈ dir.entries, ∀ name, dir.view.Existed vd e name → name ∈ own.map Prod.snd
    else list.Perm (vd.elim [] VirtualDir.items ++ dir.entries.filterMap (dir.view.seen vd))

def Fits (filldir : Filldir) : Prop := ∀ list, d.Lists list → ∀ e : Entry, e.item ∈ list → filldir [] e = true

/-- From some call on all entries are there, and the end is reported. -/
def RightListing (filldir : ℕ → Filldir) : Prop :=
  ∃ N, ∀ n ≥ N, ∃ s list r, d.readdirs filldir n = some (s, list) ∧ d.Lists (list.map Entry.item) ∧
    d.zfsReaddir (filldir n) s = some r ∧ r.code = ZFS_OK ∧ r.eof = true

end Directory

/-! ## Where listings are right -/

/-- What the entries of a local directory have to be like. -/
structure LocalDir.Ordered (dir : LocalDir) (vd : Option VirtualDir) : Prop where
  present : dir.view.past = false
  positions : ∀ e ∈ dir.entries, (∃ shown, dir.view.SeenAs vd e.name shown) → 0 < e.position ∧ e.position < 2 ^ 31
  /-- The virtual directory has a name `base@` just where it has that of the version. -/
  hides : ∀ e ∈ dir.entries, ∀ base stamp, dir.view.Displayed e.name base stamp →
    (View.Covered vd (base ++ [AT]) ↔ View.Covered vd (base ++ AT :: dir.view.timestamp (atoi stamp)))
  /-- Behind a version only versions are to be seen. -/
  versions : dir.entries.Pairwise fun a b => (∃ base stamp, dir.view.Displayed a.name base stamp) →
    (∃ shown, dir.view.SeenAs vd b.name shown) → ∃ base stamp, dir.view.Displayed b.name base stamp

/-- The entries of a local directory are ordered, and no member of a conflict is to be seen behind one that the virtual
directory hides. -/
def Directory.Listable (d : Directory) : Prop :=
  match d.virtual, d.body with
  | vd, .inode dir => dir.Ordered vd
  | some vd, .conflict _ _ members =>
    members.Pairwise fun a b => a.2 ∈ vd.subdirs.map Prod.snd → b.2 ∈ vd.subdirs.map Prod.snd
  | _, _ => True

end ZFS.Readdir
