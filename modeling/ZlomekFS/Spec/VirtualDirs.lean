import ZlomekFS.Lib.Indexed
import ZlomekFS.Lib.Runs
import ZlomekFS.Spec.Journal

/-! The tree of virtual directories above the volumes: `virtual_dir_create`, `virtual_dir_destroy`,
`virtual_mountpoint_create` and `virtual_mountpoint_destroy` of `handle/fh.c`, and what `internal_cap_lock` and
`internal_cap_unlock` of `cap.c` do to a virtual directory. All of it happens under `fh_mutex`. A directory is known
by the number of its allocation; the loops towards the root get one turn for each of them. File handles, attributes
and capabilities are left out. -/

namespace ZFS.Virtual
open Indexed

/-- The fields of `virtual_dir_def` that make the tree. -/
structure DirLink where
  parent : Option ℕ
  name : Name
  subdirs : List ℕ
  subdirIndex : ℕ
  deriving DecidableEq, Repr

structure VirtualDir extends DirLink where
  vol : Option ℕ
  nMountpoints : UInt32
  busy : Bool
  users : UInt32
  deleted : UInt32
  deriving DecidableEq, Repr

structure Volume where
  id : ℕ
  mountpoint : List UInt8
  rootVd : ℕ
  deriving DecidableEq, Repr

/-- The components of a path; `cur` is the one that is being read. -/
def splitPath (cur : Name) : List UInt8 → List Name
  | [] => if cur = [] then [] else [cur]
  | c :: s =>
    if c = 47 then if cur = [] then splitPath [] s else cur :: splitPath [] s
    else splitPath (cur ++ [c]) s

def Volume.path (vol : Volume) : List Name := splitPath [] vol.mountpoint

structure VirtualTree where
  dirs : ℕ → Option VirtualDir
  nextDir : ℕ
  byName : ℕ × Name → Option ℕ
  volumes : List Volume

def root : ℕ := 0

inductive Event
  | mount (vol : ℕ) (mountpoint : List UInt8)
  | unmount (vol : ℕ)
  | lock (vd : ℕ)
  | unlock (vd : ℕ)

namespace VirtualTree

variable (s : VirtualTree)

def setDir (vd : ℕ) (d : VirtualDir) : VirtualTree := { s with dirs := Function.update s.dirs vd (some d) }

def modifyDir (vd : ℕ) (f : VirtualDir → VirtualDir) : VirtualTree :=
  match s.dirs vd with
  | some d => s.setDir vd (f d)
  | none => s

def virtualDirCreate (parent : ℕ) (name : Name) : VirtualTree :=
  let vd := s.nextDir
  let index := match s.dirs parent with
    | some p => p.subdirs.length
    | none => 0
  let s := s.modifyDir parent fun p => { p with subdirs := p.subdirs ++ [vd] }
  { s with
    dirs := Function.update s.dirs vd (some ⟨⟨some parent, name, [], index⟩, none, 0, false, 0, 0⟩)
    nextDir := vd + 1
    byName := Function.update s.byName (parent, name) (some vd) }

def createPath : List Name → ℕ → VirtualTree → VirtualTree × ℕ
  | [], vd, s => (s, vd)
  | name :: names, vd, s =>
    match s.byName (vd, name) with
    | some sub => createPath names sub s
    | none => createPath names s.nextDir (s.virtualDirCreate vd name)

/-- The count of volumes in the subtree goes up, from `vd` to the root. -/
def addMountpoint : ℕ → ℕ → VirtualTree → VirtualTree
  | 0, _, s => s
  | fuel + 1, vd, s =>
    match s.dirs vd with
    | none => s
    | some d =>
      let s := s.setDir vd { d with nMountpoints := d.nMountpoints + 1 }
      match d.parent with
      | some parent => addMountpoint fuel parent s
      | none => s

def virtualMountpointCreate (vol : ℕ) (mountpoint : List UInt8) : VirtualTree :=
  let (s, vd) := createPath (splitPath [] mountpoint) root s
  let s := s.modifyDir vd fun d => { d with vol := some vol }
  addMountpoint s.nextDir vd { s with volumes := ⟨vol, mountpoint, vd⟩ :: s.volumes }

def free (vd : ℕ) (d : VirtualDir) : VirtualTree :=
  match d.parent with
  -- the root has no parent to be removed from
  | none => s
  | some parent =>
    let top := match s.dirs parent with
      | some p => p.subdirs.getLast?.getD vd
      | none => vd
    let s := s.modifyDir parent fun p => { p with subdirs := swapRemove p.subdirs d.subdirIndex }
    let s := s.modifyDir top fun t => { t with subdirIndex := d.subdirIndex }
    { s with
      dirs := Function.update s.dirs vd none
      byName := Function.update s.byName (parent, d.name) none }

def destroyLoop : ℕ → ℕ → UInt32 → VirtualTree → VirtualTree
  | 0, _, _, s => s
  | fuel + 1, vd, count, s =>
    match s.dirs vd with
    | none => s
    | some d =>
      if d.busy then s.setDir vd { d with deleted := d.deleted + 1 }
      else
        let count := if 1 < d.deleted then count + (d.deleted - 1) else count
        let n := d.nMountpoints - count
        let s := if n = 0 then s.free vd d else s.setDir vd { d with nMountpoints := n }
        match d.parent with
        | some parent => destroyLoop fuel parent count s
        | none => s

def virtualDirDestroy (vd : ℕ) : VirtualTree := destroyLoop s.nextDir vd 1 s

def step : Event → Option VirtualTree
  | .mount vol mountpoint =>
    if vol ∈ s.volumes.map Volume.id then none else some (s.virtualMountpointCreate vol mountpoint)
  | .unmount vol =>
    match s.volumes.find? (·.id = vol) with
    | none => none
    | some m =>
      let s := s.virtualDirDestroy m.rootVd
      some { s with volumes := s.volumes.filter (·.id ≠ vol) }
  | .lock vd =>
    match s.dirs vd with
    | some d => if d.vol = none then none else some (s.setDir vd { d with busy := true, users := d.users + 1 })
    | none => none
  | .unlock vd =>
    match s.dirs vd with
    | some d =>
      if d.busy then
        let users := d.users - 1
        if users = 0 then
          let s := s.setDir vd { d with users := users, busy := false }
          some (if 0 < d.deleted then s.virtualDirDestroy vd else s)
        else some (s.setDir vd { d with users := users })
      else none
    | none => none

def start : VirtualTree where
  dirs := Function.update (fun _ => none) root (some ⟨⟨none, [], [], 0⟩, none, 1, false, 0, 0⟩)
  nextDir := 1
  byName _ := none
  volumes := []

/-! ## What the tree is for -/

def pathTo : ℕ → ℕ → List Name
  | 0, _ => []
  | fuel + 1, vd =>
    match s.dirs vd with
    | some d =>
      match d.parent with
      | some parent => pathTo fuel parent ++ [d.name]
      | none => []
    | none => []

def path (vd : ℕ) : List Name := s.pathTo s.nextDir vd

def mountedBelow (volumes : List Volume) (path : List Name) : ℕ := (volumes.filter (path <+: ·.path)).length

/-- The directories are those above a volume, each one with the number of volumes below it; no removal is pending; the
subdirectories of a directory are those that have it as parent, and they are found by name. -/
structure TreeOk (s : VirtualTree) : Prop where
  dirs : ∀ path ≠ [], (∃ vd, s.dirs vd ≠ none ∧ s.path vd = path) ↔ ∃ vol ∈ s.volumes, path <+: vol.path
  count : ∀ vd d, s.dirs vd = some d →
    d.nMountpoints.toNat = mountedBelow s.volumes (s.path vd) + (if vd = root then 1 else 0) ∧ d.deleted = 0
  subdirs : ∀ vd d, s.dirs vd = some d →
    d.subdirs.Nodup ∧ ∀ sub, sub ∈ d.subdirs ↔ ∃ d', s.dirs sub = some d' ∧ d'.parent = some vd
  byName : ∀ vd name sub, s.byName (vd, name) = some sub ↔
    ∃ d', s.dirs sub = some d' ∧ d'.parent = some vd ∧ d'.name = name

def VolOk (s : VirtualTree) : Prop :=
  ∀ vd d vol, s.dirs vd = some d → d.vol = some vol → ∃ m ∈ s.volumes, m.id = vol ∧ m.path = s.path vd

/-- When nothing is busy the tree is that of the volumes; a directory never has another volume than one that is mounted
there. -/
def Mirrors (s : VirtualTree) : Prop := ((∀ vd d, s.dirs vd = some d → d.busy = false) → s.TreeOk) ∧ s.VolOk

/-- A volume is unmounted while no directory above it is busy. If its directory has it as volume, no other volume is
mounted there or below it, and the directory is not the root. -/
def MountSafe (s : VirtualTree) : Event → Prop
  | .mount _ _ => s.volumes.length + 2 < 2 ^ 32
  | .unmount vol => ∀ m ∈ s.volumes, m.id = vol →
    (∀ vd < s.nextDir, ∀ d ∈ s.dirs vd, d.busy = true → ¬ s.path vd <+: m.path) ∧
    ∀ d ∈ s.dirs m.rootVd, d.vol = some vol → m.path ≠ [] ∧ ∀ m' ∈ s.volumes, m.path <+: m'.path → m'.id = vol
  | _ => True

instance (s : VirtualTree) : DecidablePred s.MountSafe
  | .mount _ _ => inferInstanceAs (Decidable (_ < _))
  | .unmount vol => inferInstanceAs (Decidable (∀ m ∈ s.volumes, m.id = vol → _))
  | .lock _ | .unlock _ => isTrue trivial

end VirtualTree

end ZFS.Virtual
