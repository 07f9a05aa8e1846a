import ZlomekFS.Lib.Components
import ZlomekFS.Spec.Journal

/-! Local paths of cached dentries: `build_local_path` and `local_path_to_relative_path` of `fs-entities/dir/dir.c`,
`dentry_lookup_path` and `dentry_lookup_local_path` of `fs-entities/handle/fh.c`. Locks are left out. -/

namespace ZFS.Dcache
open Components

def SLASH : UInt8 := 47

def NODE_ID_NONE : UInt32 := 0

def VOLUME_ID_VIRTUAL : UInt32 := 0

def conflictDirP (fh : ZfsFh) : Bool := fh.sid = NODE_ID_NONE && fh.vid ≠ VOLUME_ID_VIRTUAL

/-- `internal_dentry_def` with the `local_fh` of its file handle. -/
structure Dentry where
  parent : Option ℕ
  name : Name
  fh : ZfsFh
  deriving DecidableEq

def hasLocalPath (thisNode : UInt32) (fh : ZfsFh) : Prop := fh.sid = thisNode ∧ fh.vid ≠ VOLUME_ID_VIRTUAL

/-- The dentries of a volume by their addresses: a tree, and the table that finds them by parent and name. What has a
local path lies in directories with local paths, or it is the local file of a conflict in such a directory. -/
structure VolumeDentries where
  localPath : Name
  thisNode : UInt32
  thisName : Name
  rootDentry : Option ℕ
  dentry : ℕ → Option Dentry
  byName : ℕ × Name → Option ℕ
  depth : ℕ → ℕ
  thisNode_ne : thisNode ≠ NODE_ID_NONE
  table : ∀ p n d, byName (p, n) = some d ↔ ∃ e, dentry d = some e ∧ e.parent = some p ∧ e.name = n
  above : ∀ d e p, dentry d = some e → e.parent = some p → depth p < depth d
  root : ∀ d, rootDentry = some d ↔ ∃ e, dentry d = some e ∧ e.parent = none
  names : ∀ d e, dentry d = some e → e.parent ≠ none → e.name ≠ [] ∧ SLASH ∉ e.name
  inLocal : ∀ d e p, dentry d = some e → hasLocalPath thisNode e.fh → e.parent = some p →
    ∃ q, dentry p = some q ∧ (hasLocalPath thisNode q.fh ∨ (conflictDirP q.fh = true ∧ e.name = thisName ∧
      ∀ pp, q.parent = some pp → ∃ r, dentry pp = some r ∧ hasLocalPath thisNode r.fh))

inductive LookupResult
  | found (dentry : ℕ)
  | missing
  /-- `acquire_dentry (NULL)` -/
  | nullDereference
  deriving DecidableEq

namespace VolumeDentries

variable (V : VolumeDentries)

def isConflictDir (d : ℕ) : Bool := (V.dentry d).any (conflictDirP ·.fh)

/-! ## Building paths -/

/-- The names that the loop of `build_local_path` puts together; a member of a conflict directory has the name of the
directory. -/
def namesUp : ℕ → ℕ → List Name
  | 0, _ => []
  | n + 1, d =>
    match V.dentry d with
    | none => []
    | some e =>
      match e.parent with
      | none => []
      | some p => if V.isConflictDir p then namesUp n p else namesUp n p ++ [e.name]

def buildLocalPath (d : ℕ) : Name := V.localPath ++ path SLASH (V.namesUp (V.depth d + 1) d)

/-! ## Lookups -/

def localPathToRelativePath (path : Name) : Name := path.drop V.localPath.length

def enter (d : ℕ) : Option ℕ := if V.isConflictDir d then V.byName (d, V.thisName) else some d

/-- The loop of `dentry_lookup_path` over the names in the path. -/
def walkPath (start : ℕ) (dentry : Option ℕ) : List Name → LookupResult
  | [] =>
    match dentry with
    | some d => .found d
    | none => .nullDereference
  | name :: rest =>
    match (V.byName (start, name)).bind V.enter with
    | none => .missing
    | some d => walkPath d (some d) rest

def dentryLookupPath (start : Option ℕ) (path : Name) : LookupResult :=
  match (start.or V.rootDentry).bind V.enter with
  | none => .missing
  | some start => V.walkPath start none (scan SLASH .start path)

def dentryLookupLocalPath (path : Name) : LookupResult := V.dentryLookupPath none (V.localPathToRelativePath path)

/-! ## What is to be found -/

def position (names : List Name) : Option ℕ :=
  (V.rootDentry.bind V.enter).bind fun start => names.foldlM (fun d name => (V.byName (d, name)).bind V.enter) start

def LookupRight (rel : Name) : Prop :=
  match V.dentryLookupLocalPath (V.localPath ++ rel) with
  | .found d => V.position (fields SLASH rel) = some d
  | .missing => True
  | .nullDereference => False

def RoundTrip (d : ℕ) : Prop :=
  ∃ d', V.dentryLookupLocalPath (V.buildLocalPath d) = .found d' ∧
    (V.dentry d').map Dentry.fh = (V.dentry d).map Dentry.fh

end VolumeDentries

end ZFS.Dcache
