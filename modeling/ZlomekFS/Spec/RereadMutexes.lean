import ZlomekFS.Lib.Mutexes

/-! The mutexes of users, groups and nodes while the configuration is read again, `configuration/reread_config.c`,
`configuration/config_user_group.c` and `user-group/user-group.c`: what each function locks and unlocks, in order.
The functions for users and for groups differ in `reread_group_mapping` only. -/

namespace ZFS.Reread
open Mutexes

inductive Mutex
  | usersGroups
  | nodeMutex
  | node (sid : UInt32)
  deriving DecidableEq, Repr

open Mutex

/-- `mark_all_users`, `user_create`, `destroy_marked_users` and the same for groups -/
def usersGroupsSection : List (Op Mutex) := [.lock usersGroups, .unlock usersGroups]

/-- `mark_user_mapping`, `destroy_marked_user_mapping` and the same for groups; `none` is the default mapping. -/
def mappingSection : Option UInt32 → List (Op Mutex)
  | some nod => [.lock usersGroups, .lock (node nod), .unlock (node nod), .unlock usersGroups]
  | none => usersGroupsSection

def nodeLookup (sid : UInt32) (found : Bool) : List (Op Mutex) :=
  [.lock nodeMutex] ++ (if found then [.lock (node sid)] else []) ++ [.unlock nodeMutex]

def updateMappings (sid : UInt32) (found : Bool) : List (Op Mutex) :=
  if sid ≠ 0 then
    nodeLookup sid found ++ if found then usersGroupsSection ++ [.unlock (node sid)] else []
  else usersGroupsSection

/-- What the functions meet: which lookups succeed, whether the file is read, and what it says. -/
structure Outcome where
  volumeRoot : Bool
  directory : Bool
  node : Bool
  file : Bool
  parsed : Bool
  nodeAgain : Bool
  processed : Bool
  entries : ℕ

/-- The beginning of `read_user_mapping` and `read_group_mapping`. -/
def nodeName (sid : UInt32) (found : Bool) : List (Op Mutex) :=
  if sid = 0 then [] else nodeLookup sid found ++ if found then [.unlock (node sid)] else []

/-- `read_user_mapping` and `read_group_mapping`, and what they return. -/
def readMapping (sid : UInt32) (o : Outcome) : List (Op Mutex) × Bool :=
  if sid ≠ 0 ∧ o.node = false then (nodeName sid o.node, false)
  else if o.file = false then (nodeName sid o.node, true)
  else if o.parsed = false then (nodeName sid o.node, false)
  else (nodeName sid o.node ++ updateMappings sid o.nodeAgain, o.processed)

def rereadUserMapping (thisNode sid : UInt32) (o : Outcome) : List (Op Mutex) :=
  if o.volumeRoot = false ∨ o.directory = false ∨ sid ≠ 0 ∧ sid ≠ thisNode then []
  else
    let nod := if sid = 0 then none else some thisNode
    mappingSection nod ++ (readMapping sid o).1 ++ if (readMapping sid o).2 then mappingSection nod else []

def rereadGroupMapping (thisNode sid : UInt32) (o : Outcome) : List (Op Mutex) :=
  if o.volumeRoot = false ∨ o.directory = false ∨ sid ≠ 0 ∧ sid ≠ thisNode then []
  else
    let nod := if sid = 0 then none else some thisNode
    (match nod with
      | some nod => [.lock (node nod)] ++ mappingSection (some nod) ++ [.unlock (node nod)]
      | none => mappingSection none) ++
    (readMapping sid o).1 ++ if (readMapping sid o).2 then mappingSection nod else []

def rereadList (thisNode : UInt32) (o : Outcome) : List (Op Mutex) :=
  if o.volumeRoot = false then []
  else
    usersGroupsSection ++ (List.replicate o.entries usersGroupsSection).flatten ++
      if o.processed then mappingSection (some thisNode) ++ usersGroupsSection else []

/-- `map_uid_zfs2node`, `map_uid_node2zfs` and the same for groups, for an identity other than `-1`. -/
def mapId (thisNode : UInt32) (found : Bool) : List (Op Mutex) :=
  [.lock (node thisNode), .unlock (node thisNode)] ++ if found then [] else usersGroupsSection

inductive Event
  | userList (o : Outcome)
  | groupList (o : Outcome)
  | userMapping (sid : UInt32) (o : Outcome)
  | groupMapping (sid : UInt32) (o : Outcome)
  | translate (found : Bool)

def Event.ops (thisNode : UInt32) : Event → List (Op Mutex)
  | .userList o | .groupList o => rereadList thisNode o
  | .userMapping sid o => rereadUserMapping thisNode sid o
  | .groupMapping sid o => rereadGroupMapping thisNode sid o
  | .translate found => mapId thisNode found

/-- Some event takes the second mutex while it holds the first one. -/
def Before (thisNode : UInt32) (events : Set Event) (a b : Mutex) : Prop :=
  ∃ e ∈ events, (a, b) ∈ order (e.ops thisNode) []

/-- No mutex is locked twice, all are unlocked, and the order in which they are taken has no cycle. -/
structure Disciplined (thisNode : UInt32) (events : Set Event) : Prop where
  balanced : ∀ e ∈ events, run (e.ops thisNode) [] = some []
  acyclic : ∀ m, ¬ Relation.TransGen (Before thisNode events) m m

/-- The mappings of this node are not read again: the user mappings are not updated, and the directory of the group
mappings is not found. -/
def Event.Avoids (thisNode : UInt32) : Event → Prop
  | .userMapping sid o => sid = thisNode → sid ≠ 0 → o.volumeRoot = true → o.directory = true → o.node = true →
    o.file = true → o.parsed = true → o.nodeAgain = false
  | .groupMapping sid o => sid = thisNode → sid ≠ 0 → o.volumeRoot = true → o.directory = false
  | _ => True

end ZFS.Reread
