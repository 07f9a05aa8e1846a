import ZlomekFS.Spec.FileHandle

/-! Reading an old version of a file, `version/version.c` and `zfs_read` in `fs-entities/file/file.c`. A version file
has the data of its intervals; the data of other offsets are in the next version files or in the current file. The
version files are those that `version_browse_dir` finds; their interval files can be read. -/

namespace ZFS
open Spans

def INT32_MAX : ℕ := 2 ^ 31 - 1

/-- `version_item`; the file is complete if there are no intervals. -/
structure VersionItem where
  stamp : ℕ
  size : ℕ
  intervals : Option IntervalTree
  deriving DecidableEq

abbrev FileBytes := ℕ → ℕ → UInt8

namespace VersionItem

variable (v : VersionItem)

def file (bytes : FileBytes) : FlatFile UInt8 where
  size := v.size
  byte o := if o < v.size then bytes v.stamp o else 0
  beyond _ ho := if_neg (not_lt.mpr ho)

def Contains (o : ℕ) : Prop := ∀ t ∈ v.intervals, o ∈ t

def clip (start stop : ℕ) : List Span :=
  match v.intervals with
  | some t => t.intersection start stop
  | none => [⟨start, stop⟩]

end VersionItem

structure VersionChain where
  versions : List VersionItem
  size : ℕ
  nodup : (versions.map VersionItem.stamp).Nodup
  stamp_lt : ∀ v ∈ versions, v.stamp < INT32_MAX

namespace VersionChain

variable (c : VersionChain)

def current : VersionItem := ⟨INT32_MAX, c.size, none⟩

/-- `version_browse_dir`: the current file and the versions after a time. -/
def versionBrowseDir (stamp : ℕ) : List VersionItem := c.current :: c.versions.filter (stamp < ·.stamp)

def untilComplete : List VersionItem → List VersionItem
  | [] => []
  | v :: l => if v.intervals = none then [v] else v :: untilComplete l

/-- `version_build_intervals`: the intervals of the opened version, and the list of versions. There is no list for a
complete file. -/
def versionBuildIntervals (k : VersionItem) : IntervalTree × List VersionItem :=
  match k.intervals with
  | none => (.create, [])
  | some t => (t, untilComplete ((c.versionBrowseDir k.stamp).insertionSort (·.stamp ≤ ·.stamp)))

end VersionChain

/-! ## Reading -/

/-- Data are stored in a buffer; its bytes are numbered by the offsets in the file. -/
def store (buf : ℕ → UInt8) (start : ℕ) (data : List UInt8) (o : ℕ) : UInt8 :=
  if start ≤ o then data.getD (o - start) (buf o) else buf o

theorem le_of_read_ne_nil {f : FlatFile UInt8} {r : Span} (h : f.read r.start (r.stop - r.start) ≠ []) : r.start ≤ r.stop := by
  have hlen := List.length_pos_of_ne_nil h
  rw [FlatFile.length_read] at hlen
  omega

/-- The loop over the parts of a version file that are not covered yet. A part is covered if some of it was read. -/
def readPart (f : FlatFile UInt8) (s : IntervalTree × (ℕ → UInt8)) (r : Span) : IntervalTree × (ℕ → UInt8) :=
  let data := f.read r.start (r.stop - r.start)
  (if h : data ≠ [] then s.1.insert r.start r.stop (le_of_read_ne_nil h) else s.1, store s.2 r.start data)

def readItem (bytes : FileBytes) (start stop : ℕ) (s : IntervalTree × (ℕ → UInt8)) (v : VersionItem) :
    IntervalTree × (ℕ → UInt8) :=
  if v.stamp = 0 then s else (s.1.complementVarray (v.clip start stop)).foldl (readPart (v.file bytes)) s

def versionReadOldData (bytes : FileBytes) (versioned : IntervalTree) (list : List VersionItem) (start stop : ℕ)
    (buf : ℕ → UInt8) : ℕ → UInt8 :=
  (list.foldl (readItem bytes start stop) (IntervalTree.create.add versioned, buf)).2

namespace VersionChain

variable (c : VersionChain)

/-- `zfs_read` of a version file: its own data, and the old data of other version files over them. -/
def zfsRead (bytes : FileBytes) (k : VersionItem) (offset count : ℕ) (buf : ℕ → UInt8) : ℕ → UInt8 :=
  let buf := store buf offset ((k.file bytes).read offset count)
  let (versioned, list) := c.versionBuildIntervals k
  if offset < k.size ∧ list ≠ [] then versionReadOldData bytes versioned list offset (offset + count) buf else buf

/-! ## What is to be read -/

/-- The earliest of the version, the later ones and the current file that contains an offset. -/
structure Source (k : VersionItem) (o : ℕ) (j : VersionItem) : Prop where
  mem : j = k ∨ j ∈ c.versionBrowseDir k.stamp
  contains : j.Contains o
  first : ∀ i, i = k ∨ i ∈ c.versionBrowseDir k.stamp → i.Contains o → j.stamp ≤ i.stamp

/-- The bytes of the version, as far as its size and the files go, and nothing else in the buffer. -/
structure ReadRight (k : VersionItem) (offset count : ℕ) (bytes : FileBytes) (buf : ℕ → UInt8) : Prop where
  inside : ∀ o j, offset ≤ o → o < offset + count → o < k.size → c.Source k o j → o < j.size →
    c.zfsRead bytes k offset count buf o = bytes j.stamp o
  outside : ∀ o, ¬ (offset ≤ o ∧ o < offset + count) → c.zfsRead bytes k offset count buf o = buf o

end VersionChain

/-- An offset is in a part of a version file that is read when `covered` has what was read before. -/
def VersionItem.Reads (v : VersionItem) (start stop : ℕ) (covered : IntervalTree) (o : ℕ) : Prop :=
  ∃ r ∈ covered.complementVarray (v.clip start stop), r.Has o ∧ r.start < v.size

/-- What is covered after some versions, whatever they hold. -/
def coveredBy (versioned : IntervalTree) (start stop : ℕ) (done : List VersionItem) : IntervalTree :=
  (done.foldl (readItem (fun _ _ => 0) start stop) (IntervalTree.create.add versioned, fun _ => 0)).1

/-- What is read of a version file besides its intervals in the range does no harm: past the range the file has no
byte, and in the range no file has a byte for it. -/
def VersionChain.SurplusSafe (c : VersionChain) (k : VersionItem) (start stop : ℕ) (covered : IntervalTree) (v : VersionItem) : Prop :=
  ∀ o, v.Reads start stop covered o → ¬ (v.Contains o ∧ start ≤ o ∧ o < stop) →
    (stop ≤ o → v.size ≤ o) ∧ (o < stop → o < k.size → ∀ j, c.Source k o j → j.size ≤ o)

/-- The condition on a read: the surplus is harmless at each version of the list. -/
def VersionChain.ReadSafe (c : VersionChain) (k : VersionItem) (offset count : ℕ) : Prop :=
  offset < k.size → ∀ done v rest, (c.versionBuildIntervals k).2 = done ++ v :: rest →
    c.SurplusSafe k offset (offset + count) (coveredBy (c.versionBuildIntervals k).1 offset (offset + count) done) v

end ZFS
