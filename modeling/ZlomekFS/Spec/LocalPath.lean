import ZlomekFS.Lib.Resolving
import ZlomekFS.Spec.Metadata

/-! `get_local_path_from_metadata` of `fs-entities/metadata/metadata.c`: the path of a file from the links in the
metadata. The recursion of the function has no bound; with too little fuel there is no result. File operations
succeed. -/

namespace ZFS.Meta
open Resolving

/-- The directories of the local disk, from the directory at `vol->local_path` on. No entry has an empty name; inode
numbers that a handle cannot have do not count. -/
structure Disk where
  root : FileId
  entry : FileId → Name → Option FileId
  named : ∀ d, entry d [] = none

def Disk.lstat (disk : Disk) (path : List Name) : Option FileId := path.foldlM disk.entry disk.root

/-- The links as names of paths; `append_file_name` adds a component. -/
def Disk.naming (disk : Disk) : Naming FileId (List Name) Link where
  parent := Link.parent
  top := []
  extend path link := path ++ [link.name]
  leads path id := disk.lstat path = some id

/-- The metadata that are passed to `read_hardlinks`: a bad type, and what is not set. -/
def badStatus : Status := ⟨0, 0, .bad, 0, 0⟩

def getLocalPathFromMetadata (disk : Disk) : ℕ → Volume → FileId → Option (Volume × Option (List Name))
  | 0, _, _ => none
  | n + 1, v, fh =>
    let (v, found, hl) := v.readHardlinks fh badStatus
    match found with
    | none => some (v, none)
    | some m =>
      if m.type = .bad then some (v, none)
      -- taken for the root of the volume
      else if m.link = noLink ∧ hl = [] then some (v, some [])
      else
        (walk disk.naming (getLocalPathFromMetadata disk n) fh hl v).map fun (v, left, path) =>
          let v := if left = [] then v.deleteMetadata m fh none else v
          (if left ≠ hl then v.writeHardlinks fh true m left else v, path)

structure MetadataStore where
  vol : Volume
  key : ∀ id m, vol.record id = some m → m.id = id

namespace Volume

variable (v : Volume)

def linksOf (id : FileId) : List Link := (v.readHardlinks id badStatus).2.2

def IsParent (p id : FileId) : Prop := ∃ link ∈ v.linksOf id, link.parent = p

def Unlinked (id : FileId) : Prop := ∃ m, v.record id = some m ∧ m.type ≠ .bad ∧ m.link = noLink ∧ v.linksOf id = []

/-- The function returns a path that leads to the file, or none. The path of the root is that of the root only, and
the links that are dropped do not lead to their files. -/
def LocalPathRight (disk : Disk) (fh : FileId) : Prop :=
  ∃ n v' path, getLocalPathFromMetadata disk n v fh = some (v', path) ∧
    (∀ p, path = some p → disk.lstat p = some fh) ∧
    (path = some [] → fh = disk.root) ∧
    ∀ id, ∀ link ∈ v.linksOf id, link ∉ v'.linksOf id →
      ∀ n v'' p, getLocalPathFromMetadata disk n v link.parent = some (v'', some p) → disk.lstat (p ++ [link.name]) ≠ some id

end Volume

end ZFS.Meta
