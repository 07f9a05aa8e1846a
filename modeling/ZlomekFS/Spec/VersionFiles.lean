import ZlomekFS.Lib.Decimals
import ZlomekFS.Spec.OldData
import ZlomekFS.Spec.ReintegrateDir

/-! The version files of a file, `version/version.c`: `version_browse_dir`, which goes through a directory to find them,
and its callers `version_find_version` and `version_build_intervals`. A version of `name` is the file `name@stamp`. -/

namespace ZFS.VersionFiles
open Decimals

def AT : UInt8 := 64

def DOT : UInt8 := 46

/-! ## Directories -/

structure Dirent where
  name : Name
  ino : UInt64
  mtime : Option ℤ
  deriving DecidableEq

structure Content where
  entries : List Dirent
  nodup : (entries.map Dirent.name).Nodup

namespace Content

variable (c : Content)

def Has (path : Name) : Prop := ∃ e ∈ c.entries, e.name = path

def stat (path : Name) : Option ℤ := (c.entries.find? (·.name = path)).bind Dirent.mtime

end Content

structure Directory where
  content : Content
  opendir : Option ℤ
  readdir : Option (ℕ × ℤ)

def Content.directory (c : Content) : Directory := ⟨c, none, none⟩

/-! ## Numbers -/

def isspace (b : UInt8) : Bool := b = 32 || (9 ≤ b && b ≤ 13)

def strtol (s : Name) : ℤ :=
  let s := s.dropWhile isspace
  let n : ℤ := value ((if s.head? = some 45 ∨ s.head? = some 43 then s.tail else s).takeWhile isDigit)
  max (-2 ^ 63) (min (2 ^ 63 - 1) (if s.head? = some 45 then -n else n))

/-- The `long` is cut to an `int`. -/
def atoi (s : Name) : ℤ := (Int32.ofInt (strtol s)).toInt

/-- What `%ld` prints. -/
def decimal (t : ℤ) : Name := if t < 0 then 45 :: numeral t.natAbs else numeral t.natAbs

def versionName (name : Name) (stamp : ℤ) : Name := name ++ AT :: decimal stamp

/-! ## Browsing -/

/-- `version_item` as `version_browse_dir` fills it. -/
structure Item where
  stamp : ℤ
  name : Name
  deriving DecidableEq

structure Browse where
  res : ℤ
  currentIno : UInt64
  ino : Option UInt32
  v : Option (List Item)

/-- What stands before the first `@` and behind it up to a dot; nothing for an interval file. -/
def splitName (dName : Name) : Option (Name × Name) :=
  match dName.dropWhile (· ≠ AT) with
  | [] => none
  | _ :: p =>
    if (p.dropWhile (· ≠ DOT)).tail.head? = some 105 then none
    else some (dName.takeWhile (· ≠ AT), p.takeWhile (· ≠ DOT))

/-- The check of the modification time, which is 0 if `stat` fails. -/
def existed (mtime : Option ℤ) (stamp : ℤ) : Bool := mtime.getD 0 ≠ 0 && mtime.getD 0 ≤ stamp

/-- The body of the loop; a pointer that is `NULL` is `none`. -/
def browseEntry (c : Content) (name : Name) (stamp : ℤ) (s : Browse) (de : Dirent) : Browse :=
  if name <+: de.name then
    if de.name.length = name.length then
      { s with currentIno := de.ino, v := s.v.map (· ++ [⟨INT32_MAX, de.name⟩]) }
    else
      match splitName de.name with
      | none => s
      | some (base, p) =>
        let t := atoi p
        let found := s.ino.isSome && decide (stamp ≤ t) && (decide (s.res = 0) || decide (t < s.res)) &&
          existed (c.stat (base ++ AT :: p)) stamp
        { s with
          res := if found then t else s.res
          ino := if found then some de.ino.toUInt32 else s.ino
          v := if stamp < t then s.v.map (· ++ [⟨t, base ++ AT :: p⟩]) else s.v }
  else s

structure BrowseResult where
  code : ℤ
  stamp : ℤ
  ino : Option UInt32
  v : Option (List Item)

def versionBrowseDir (d : Directory) (name : Name) (stamp : ℤ) (ino : Option UInt32) (v : Option (List Item)) :
    BrowseResult :=
  let browse (entries : List Dirent) := entries.foldl (browseEntry d.content name stamp) ⟨0, 0, ino, v⟩
  match d.opendir, d.readdir with
  | some e, _ => ⟨e, stamp, ino, v⟩
  | none, some (n, e) =>
    let s := browse (d.content.entries.take n)
    ⟨e, stamp, s.ino, s.v⟩
  | none, none =>
    let s := browse d.content.entries
    if s.ino.isNone then ⟨ZFS_OK, stamp, s.ino, s.v⟩
    else if s.res ≠ 0 then ⟨ZFS_OK, s.res, s.ino, s.v⟩
    else ⟨ZFS_OK, 0, some (if existed (d.content.stat name) stamp then s.currentIno.toUInt32 else 0), s.v⟩

def sname (name : Name) : Name := name.takeWhile (· ≠ AT)

/-- `version_find_version` with the name that it leaves. -/
def versionFindVersion (d : Directory) (name : Name) (stamp : ℤ) : ℤ × Name :=
  if (d.content.stat (versionName (sname name) stamp)).isSome then (ZFS_OK, versionName (sname name) stamp)
  else
    -- what `version_browse_dir` returns is not looked at
    let r := versionBrowseDir d (sname name) stamp (some 0) none
    if 0 < r.stamp then (ZFS_OK, versionName (sname name) r.stamp)
    else if 0 < r.ino.getD 0 then (ZFS_OK, sname name)
    else (ENOENT, name)

def versionList (d : Directory) (name : Name) (stamp : ℤ) : List Item :=
  (versionBrowseDir d (sname name) stamp none (some [])).v.getD []

/-! ## What is to be found -/

namespace Content

variable (c : Content) (name : Name) (stamp : ℤ)

def IsVersion : Prop := 0 < stamp ∧ c.Has (versionName name stamp)

/-- A file was there at a time if it was not modified later. -/
def ExistedAt (path : Name) (stamp : ℤ) : Prop := ∃ mtime, c.stat path = some mtime ∧ mtime ≤ stamp

/-- The stamps of the versions that hold what the file was at a time. -/
def candidates : Set ℤ := {t | stamp ≤ t ∧ c.IsVersion name t ∧ c.ExistedAt (versionName name t) stamp}

/-- The exact version, the first one after the time, the current file, or none. -/
structure FindRight (r : ℤ × Name) : Prop where
  exact : c.IsVersion name stamp → r = (ZFS_OK, versionName name stamp)
  next : ¬ c.IsVersion name stamp → ∀ t, IsLeast (c.candidates name stamp) t → r = (ZFS_OK, versionName name t)
  current : ¬ c.IsVersion name stamp → c.candidates name stamp = ∅ → c.ExistedAt name stamp → r = (ZFS_OK, name)
  missing : ¬ c.IsVersion name stamp → c.candidates name stamp = ∅ → ¬ c.ExistedAt name stamp → r.1 = ENOENT

structure ListRight (items : List Item) : Prop where
  nodup : items.Nodup
  mem_iff : ∀ i, i ∈ items ↔
    (c.IsVersion name i.stamp ∧ stamp < i.stamp ∧ i.name = versionName name i.stamp) ∨
      (c.Has name ∧ i = ⟨INT32_MAX, name⟩)

/-- A longer name with a suffix that is not the one of an interval file. -/
def Considered (e : Dirent) : Prop := name <+: e.name ∧ e.name ≠ name ∧ splitName e.name ≠ none

structure Proper : Prop where
  /-- No other file has the name as a part before its suffix, and all stamps are those of an `int`. -/
  only : ∀ e ∈ c.entries, Considered name e → ∃ t : ℤ, 0 < t ∧ t ≤ INT32_MAX ∧ e.name = versionName name t
  readable : ∀ t, c.IsVersion name t → c.stat (versionName name t) ≠ none
  /-- The current file does not have the inode number 0 or the modification time 0. -/
  current : ∀ e ∈ c.entries, e.name = name → e.mtime ≠ none → e.mtime ≠ some 0 ∧ e.ino.toUInt32 ≠ 0
  /-- A version with the modification time 0 is not the first one after a time. -/
  covered : ∀ t, c.IsVersion name t → c.stat (versionName name t) = some 0 → ∀ stamp, 0 ≤ stamp → stamp < t →
    ¬ c.IsVersion name stamp → ∃ u m, stamp < u ∧ u < t ∧ c.IsVersion name u ∧ c.stat (versionName name u) = some m ∧
      m ≠ 0 ∧ m ≤ stamp

end Content

end ZFS.VersionFiles
