import ZlomekFS.Lib.Runs
import ZlomekFS.Spec.IntervalSplay

/-! A regular file with a version file: `local_write` in `fs-entities/file/file.c`, `local_setattr` in
`fs-entities/dir/dir.c` and `version_copy_data` in `version/version.c`, with versioning switched on. The version file
stays open, or it is opened again with the intervals that were saved. Files can be opened, read and written; seeking to
a negative offset fails. -/

namespace ZFS
open Spans Trees

def ZFS_VERSION_BLOCK_SIZE : ℕ := ZFS_MAXDATA

structure VersionedFile where
  orig : FlatFile UInt8
  file : FlatFile UInt8
  version : FlatFile UInt8
  versioned : IntervalTreeDef
  fileTruncated : Bool
  newFile : Bool
  changed : List Span

inductive VersionEvent
  /-- `local_write`; `header` is the memory from the address of the `data_buffer` on, not from that of the data -/
  | write (offset : ℕ) (data : List UInt8) (header : ℕ → UInt8)
  | truncate (size : ℕ)

/-- `lseek` takes the offset as an `off_t`. -/
def Seekable (offset : ℕ) : Prop := offset < 2 ^ 63

instance (offset : ℕ) : Decidable (Seekable offset) := inferInstanceAs (Decidable (_ < _))

/-- The number of bytes that `version_copy_data` reads; its parameter is a `uint32_t`. -/
def toRead (length : ℕ) : ℕ := if ZFS_VERSION_BLOCK_SIZE ≤ u32 length then ZFS_VERSION_BLOCK_SIZE - 1 else u32 length

/-- `version_copy_data`; the old data are not written if they are what `newdata` points at. -/
def versionCopyData (file version : FlatFile UInt8) (offset length : ℕ) (newdata : Option (ℕ → UInt8)) : FlatFile UInt8 :=
  if Seekable offset then
    let olddata := file.read offset (toRead length)
    if newdata.any fun p => olddata = (List.range olddata.length).map p then version
    else version.write offset olddata
  else version

namespace VersionedFile

def create (orig : FlatFile UInt8) (fileTruncated newFile : Bool) : VersionedFile where
  orig := orig
  file := orig
  version := (FlatFile.ofList []).truncate orig.size
  versioned := .create
  fileTruncated := fileTruncated
  newFile := newFile
  changed := []

variable (s : VersionedFile)

def write (offset : ℕ) (data : List UInt8) : VersionedFile :=
  if Seekable offset then
    { s with file := s.file.write offset data, changed := ⟨offset, offset + data.length⟩ :: s.changed }
  else s

def setSize (size : ℕ) : VersionedFile :=
  if Seekable size then { s with file := s.file.truncate size, changed := ⟨size, s.file.size⟩ :: s.changed } else s

def copyAll (save : List Span) (header : ℕ → UInt8) : FlatFile UInt8 :=
  save.foldl (fun version x => versionCopyData s.file version x.start (x.stop - x.start) (some header)) s.version

/-- `local_write`; `verend` is a `uint32_t`. -/
def localWrite (offset : ℕ) (data : List UInt8) (header : ℕ → UInt8) : Option VersionedFile :=
  if s.fileTruncated then some (s.write offset data)
  else
    let verend := u32 (offset + data.length)
    (s.versioned.complement offset verend).bind fun (versioned, save) =>
      (versioned.insert offset verend).map fun versioned =>
        { s with versioned := versioned, version := s.copyAll save header }.write offset data

def localSetattr (size : ℕ) : Option VersionedFile :=
  if s.newFile = false ∧ size < s.file.size then
    (s.versioned.insert size s.file.size).map fun versioned =>
      { s with
        versioned := versioned
        version := versionCopyData s.file s.version size (s.file.size - size) none }.setSize size
  else some (s.setSize size)

def step : VersionEvent → Option VersionedFile
  | .write offset data header => s.localWrite offset data header
  | .truncate size => s.localSetattr size

/-! ## What the version file is for -/

def IsVersioned (o : ℕ) : Prop := Covers (inorder s.versioned.splay) o

instance (o : ℕ) : Decidable (s.IsVersioned o) := inferInstanceAs (Decidable (Covers _ o))

def HasOriginal (o : ℕ) : Prop := o < s.version.size ∧ s.version.byte o = s.orig.byte o

structure Preserved : Prop where
  changed : ∀ o < s.orig.size, Covers s.changed o → s.HasOriginal o
  versioned : ∀ o, s.IsVersioned o → s.HasOriginal o ∨ s.orig.size ≤ o

def unsaved (start stop : ℕ) : List Span := ((s.versioned.complement start stop).map Prod.snd).getD []

/-- The original bytes of a part are read in one go, and they are not what the header holds. -/
def Copied (x : Span) (stop : ℕ) (header : ℕ → UInt8) : Prop :=
  min (min x.stop stop) s.orig.size ≤ x.start + toRead (x.stop - x.start) ∧
    ∃ i < toRead (x.stop - x.start), x.start + i < s.file.size ∧ s.file.byte (x.start + i) ≠ header i

instance (x : Span) (stop : ℕ) (header : ℕ → UInt8) : Decidable (s.Copied x stop header) :=
  inferInstanceAs (Decidable (_ ∧ _))

/-- The condition on a write: the offsets are those of a `uint32_t`, and all that is not versioned yet is copied. -/
def WriteSafe (offset : ℕ) (data : List UInt8) (header : ℕ → UInt8) : Prop :=
  (s.fileTruncated = true → s.orig.size ≤ offset) ∧
    (s.fileTruncated = false → offset + data.length < 2 ^ 32 ∧
      ∀ x ∈ s.unsaved offset (offset + data.length), x.start < s.orig.size → s.Copied x (offset + data.length) header)

instance (offset : ℕ) (data : List UInt8) (header : ℕ → UInt8) : Decidable (s.WriteSafe offset data header) :=
  inferInstanceAs (Decidable (_ ∧ _))

/-- The condition on a truncation: the original bytes that are cut off are read in one go, and those that are versioned
have not changed. -/
def TruncateSafe (size : ℕ) : Prop :=
  size < min s.file.size s.orig.size →
    s.newFile = false ∧ min s.file.size s.orig.size ≤ size + toRead (s.file.size - size) ∧
      ∀ o, size ≤ o → o < min s.file.size s.orig.size → s.IsVersioned o → s.file.byte o = s.orig.byte o

instance (size : ℕ) : Decidable (s.TruncateSafe size) := inferInstanceAs (Decidable (_ → _))

def VersionSafe : VersionEvent → Prop
  | .write offset data header => s.WriteSafe offset data header
  | .truncate size => s.TruncateSafe size

instance : ∀ e, Decidable (s.VersionSafe e)
  | .write offset data header => inferInstanceAs (Decidable (s.WriteSafe offset data header))
  | .truncate size => inferInstanceAs (Decidable (s.TruncateSafe size))

end VersionedFile

end ZFS
