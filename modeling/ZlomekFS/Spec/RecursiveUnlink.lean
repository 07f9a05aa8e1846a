import ZlomekFS.Lib.Loops
import ZlomekFS.Spec.LocalVolume

/-! `recursive_unlink` of `dir.c`. A path is the directory and the name of a file, and the loops go over
the names that are there when the directory is opened; a path deeper than the fuel is too long. The calls
that handle a name and may move it to the shadow are noted with the volume they find. Journals, versions
and cached dentries are left out. -/

namespace ZFS
open Loops

def ENAMETOOLONG : ℤ := 36
def ENOTEMPTY : ℤ := 39

/-- A call for a name with `move_to_shadow_p`, and the volume before it. -/
structure UnlinkStep where
  vol : LocalVolume
  link : Link

structure Unlinking where
  vol : LocalVolume
  steps : List UnlinkStep

abbrev Unlink := Unlinking → ℤ × Unlinking

/-- What a move to the shadow is; there is none without `move_to_shadow_p`. -/
abbrev MoveToShadow := Option (FileId → Link → Unlink)

namespace Unlinking

def note (u : Unlinking) (move : MoveToShadow) (link : Link) : Unlinking :=
  if move.isSome then { u with steps := u.steps ++ [⟨u.vol, link⟩] } else u

end Unlinking

/-- Whether `recursive_unlink_itself` moves a file with one name to the shadow. -/
def LocalVolume.keepsInShadow (v : LocalVolume) (id : FileId) : Bool :=
  v.nHardlinks id = 1 &&
    (v.metadata id).any fun m => m.modifiedTree || (!v.isMaster && m.masterFh = none)

def recursiveUnlinkItself (move : MoveToShadow) (link : Link) : Unlink := fun u =>
  let u := u.note move link
  match u.vol.lstat link with
  | none => (ZFS_OK, u)
  | some id =>
    match move.filter fun _ => u.vol.keepsInShadow id with
    | some moveToShadow => moveToShadow id link u
    | none =>
      if u.vol.ftype id = .dir ∧ u.vol.readdir id ≠ [] then (ENOTEMPTY, u)
      else
        -- the flags are cleared before the metadata is deleted
        let m := { (u.vol.metadata id).getD (LocalVolume.newMetadata .bad) with
          modifiedTree := false, shadow := false, type := u.vol.ftype id }
        let v := (u.vol.unlink link).deleteMetadata id m (u.vol.metadata id).isSome link
        (ZFS_OK, { u with vol := v })

/-- What is done before the contents of `link` are handled, if it is a directory. -/
def unlinkContents (contents : Link → FileId → Option FileMetadata → Unlink) (link : Link) : Unlink := fun u =>
  match u.vol.lstat link with
  | none => (ZFS_OK, u)
  | some id =>
    if u.vol.ftype id = .dir then
      let (v, m) := u.vol.lookupMetadata id .dir true
      contents link id m { u with vol := v }
    else (ZFS_OK, u)

/-- `recursive_unlink_contents` of the directory `id` with the name `link` and the metadata `m`. -/
def recursiveUnlinkContents (move : MoveToShadow) : ℕ → Link → FileId → Option FileMetadata → Unlink
  | 0, _, _, _, u => (ENAMETOOLONG, u)
  | fuel + 1, link, id, m, u =>
    match move.filter fun _ => !u.vol.isMaster && m.all (·.masterFh = none) with
    | some moveToShadow => moveToShadow id link (u.note move link)
    | none =>
      let (r, u) := forEach ZFS_OK (fun name => unlinkContents (recursiveUnlinkContents move fuel) ⟨id, name⟩)
        (u.vol.readdir id) u
      if r ≠ ZFS_OK then (r, u)
      else forEach ZFS_OK (fun name => recursiveUnlinkItself move ⟨id, name⟩) (u.vol.readdir id) u

def recursiveUnlinkStart (move : MoveToShadow) (fuel : ℕ) (link : Link) : Unlink := fun u =>
  if u.vol.lstat link = none then (ZFS_OK, u)
  else
    let (r, u) := unlinkContents (recursiveUnlinkContents move fuel) link u
    if r ≠ ZFS_OK then (r, u) else recursiveUnlinkItself move link u

/-- `recursive_unlink`; the directory exists and its metadata is looked up first. -/
def recursiveUnlinkPath (move : MoveToShadow) (fuel : ℕ) (link : Link) : Unlink := fun u =>
  let (v, _) := u.vol.lookupMetadata link.parent (u.vol.ftype link.parent) true
  recursiveUnlinkStart move fuel link { u with vol := v }

/-- `move_to_shadow_base`: what has the name in the shadow is deleted for good. -/
def moveToShadowBase (fuel : ℕ) (id : FileId) (link : Link) : Unlink := fun u =>
  let shadow := u.vol.shadowLink id link.name
  let (r, u) := recursiveUnlinkPath none fuel shadow u
  if r ≠ ZFS_OK then (ZFS_METADATA_ERROR, u)
  else
    match u.vol.localRenameBase link shadow with
    | none => (ZFS_METADATA_ERROR, u)
    | some v => (ZFS_OK, { u with vol := v })

def recursiveUnlink (fuel : ℕ) (link : Link) : Unlink :=
  recursiveUnlinkPath (some (moveToShadowBase fuel)) fuel link

def recursiveUnlinks (fuel : ℕ) (links : List Link) (u : Unlinking) : Unlinking :=
  links.foldl (fun u link => (recursiveUnlink fuel link u).2) u

end ZFS
