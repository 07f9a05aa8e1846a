import ZlomekFS.Spec.RereadMutexes

/-! The mutexes of users, groups and nodes are taken in one order unless the mappings of this node are read again. -/

namespace ZFS.Reread
open Mutexes Mutex

def NodeLast (a b : Mutex) : Prop := (a = usersGroups ∨ a = nodeMutex) ∧ ∃ sid, b = node sid

def rank : Mutex → ℕ
  | node _ => 1
  | _ => 0

theorem rank_lt {a b : Mutex} (h : NodeLast a b) : rank a < rank b := by
  obtain ⟨rfl | rfl, sid, rfl⟩ := h
  · exact Nat.one_pos
  · exact Nat.one_pos

theorem keeps_usersGroupsSection : Keeps NodeLast usersGroupsSection := by
  simp [keeps_iff, usersGroupsSection, run, order, Op.apply]

theorem keeps_mappingSection : ∀ nod, Keeps NodeLast (mappingSection nod)
  | none => keeps_usersGroupsSection
  | some nod => by simp [keeps_iff, mappingSection, run, order, Op.apply, NodeLast]

theorem keeps_mapId (thisNode : UInt32) (found : Bool) : Keeps NodeLast (mapId thisNode found) := by
  refine Keeps.append ?_ ?_
  · simp [keeps_iff, run, order, Op.apply]
  · split_ifs
    · exact Keeps.nil _
    · exact keeps_usersGroupsSection

theorem keeps_rereadList (thisNode : UInt32) (o : Outcome) : Keeps NodeLast (rereadList thisNode o) := by
  unfold rereadList
  split_ifs
  · exact Keeps.nil _
  · refine (keeps_usersGroupsSection.append (Keeps.flatten fun ops hops => ?_)).append ?_
    · exact List.eq_of_mem_replicate hops ▸ keeps_usersGroupsSection
    · exact (keeps_mappingSection _).append keeps_usersGroupsSection
  · refine (keeps_usersGroupsSection.append (Keeps.flatten fun ops hops => ?_)).append (Keeps.nil _)
    exact List.eq_of_mem_replicate hops ▸ keeps_usersGroupsSection

theorem keeps_nodeName (sid : UInt32) (found : Bool) : Keeps NodeLast (nodeName sid found) := by
  unfold nodeName
  by_cases hsid : sid = 0
  · rw [if_pos hsid]
    exact Keeps.nil _
  · cases found <;> simp [keeps_iff, hsid, nodeLookup, run, order, Op.apply, NodeLast]

theorem keeps_updateMappings {sid : UInt32} {found : Bool} (h : sid ≠ 0 → found = false) :
    Keeps NodeLast (updateMappings sid found) := by
  unfold updateMappings
  by_cases hsid : sid = 0
  · simpa only [hsid, ne_eq, not_true, if_false] using keeps_usersGroupsSection
  · simp [keeps_iff, hsid, h hsid, nodeLookup, run, order, Op.apply]

theorem keeps_readMapping {sid : UInt32} {o : Outcome}
    (h : sid ≠ 0 → o.node = true → o.file = true → o.parsed = true → o.nodeAgain = false) :
    Keeps NodeLast (readMapping sid o).1 := by
  unfold readMapping
  split_ifs with hnode hfile hparsed
  · exact keeps_nodeName ..
  · exact keeps_nodeName ..
  · exact keeps_nodeName ..
  · refine (keeps_nodeName ..).append (keeps_updateMappings fun hsid => ?_)
    rw [not_and, Bool.not_eq_false] at hnode
    exact h hsid (hnode hsid) (Bool.not_eq_false _ ▸ hfile) (Bool.not_eq_false _ ▸ hparsed)

/-- The end of `reread_user_mapping` and `reread_group_mapping`. -/
theorem keeps_ite (b : Bool) (nod : Option UInt32) : Keeps NodeLast (if b then mappingSection nod else []) := by
  split_ifs
  · exact keeps_mappingSection nod
  · exact Keeps.nil _

theorem keeps_ops {thisNode : UInt32} {e : Event} (h : e.Avoids thisNode) : Keeps NodeLast (e.ops thisNode) := by
  cases e with
  | userList o | groupList o => exact keeps_rereadList thisNode o
  | translate found => exact keeps_mapId thisNode found
  | userMapping sid o =>
    rw [Event.ops, rereadUserMapping]
    by_cases hout : o.volumeRoot = false ∨ o.directory = false ∨ sid ≠ 0 ∧ sid ≠ thisNode
    · rw [if_pos hout]
      exact Keeps.nil _
    · rw [if_neg hout]
      simp only [not_or, not_and, not_not, Bool.not_eq_false] at hout
      refine ((keeps_mappingSection _).append (keeps_readMapping fun hsid => ?_)).append (keeps_ite ..)
      exact h (hout.2.2 hsid) hsid hout.1 hout.2.1
  | groupMapping sid o =>
    rw [Event.ops, rereadGroupMapping]
    by_cases hout : o.volumeRoot = false ∨ o.directory = false ∨ sid ≠ 0 ∧ sid ≠ thisNode
    · rw [if_pos hout]
      exact Keeps.nil _
    · rw [if_neg hout]
      simp only [not_or, not_and, not_not, Bool.not_eq_false] at hout
      have hsid : sid = 0 := by
        by_contra hsid
        exact Bool.noConfusion (hout.2.1.symm.trans (h (hout.2.2 hsid) hsid hout.1))
      subst hsid
      exact ((keeps_mappingSection none).append (keeps_readMapping fun h0 => absurd rfl h0)).append (keeps_ite ..)

/-! ## This node -/

theorem not_balanced_group {thisNode : UInt32} {o : Outcome} (h0 : thisNode ≠ 0) (hroot : o.volumeRoot = true)
    (hdir : o.directory = true) : run (rereadGroupMapping thisNode thisNode o) [] ≠ some [] := by
  simp [rereadGroupMapping, hroot, hdir, h0, mappingSection, run, Op.apply]

/-- The mappings are marked under one mutex and updated under the other one. -/
theorem crossed {thisNode : UInt32} {o : Outcome} (h0 : thisNode ≠ 0) (hroot : o.volumeRoot = true)
    (hdir : o.directory = true) (hnode : o.node = true) (hfile : o.file = true) (hparsed : o.parsed = true)
    (hagain : o.nodeAgain = true) :
    (usersGroups, node thisNode) ∈ order (rereadUserMapping thisNode thisNode o) [] ∧
      (node thisNode, usersGroups) ∈ order (rereadUserMapping thisNode thisNode o) [] := by
  simp [rereadUserMapping, readMapping, nodeName, updateMappings, nodeLookup, usersGroupsSection, mappingSection, hroot,
    hdir, hnode, hfile, hparsed, hagain, h0, order, Op.apply]

/-- Whatever happens at the same time, no mutex is locked twice, all are unlocked and the order in which they are taken
has no cycle, if and only if the mappings of this node are not read again. -/
theorem reread_disciplined_iff (thisNode : UInt32) (events : Set Event) :
    Disciplined thisNode events ↔ ∀ e ∈ events, e.Avoids thisNode := by
  refine ⟨fun h e he => ?_, fun h => ⟨fun e he => (keeps_ops (h e he)).balanced, fun m => ?_⟩⟩
  · cases e with
    | userMapping sid o =>
      intro hsid h0 hroot hdir hnode hfile hparsed
      subst hsid
      by_contra hagain
      obtain ⟨h1, h2⟩ := crossed h0 hroot hdir hnode hfile hparsed (Bool.not_eq_false _ ▸ hagain)
      exact h.acyclic usersGroups (.tail (.single ⟨_, he, h1⟩) ⟨_, he, h2⟩)
    | groupMapping sid o =>
      intro hsid h0 hroot
      subst hsid
      by_contra hdir
      exact not_balanced_group h0 hroot (Bool.not_eq_false _ ▸ hdir) (h.balanced _ he)
    | userList o | groupList o | translate found => trivial
  · refine acyclic_of_rank rank (fun a b hab => ?_) m
    obtain ⟨e, he, hp⟩ := hab
    exact rank_lt ((keeps_ops (h e he)).ordered _ hp)

/-- A mapping is read, and then its node is not found any more. -/
def notFoundAgain : Outcome where
  volumeRoot := true
  directory := true
  node := true
  file := true
  parsed := true
  nodeAgain := false
  processed := true
  entries := 0

/-- The group mapping of node 1 is read again on node 1. -/
theorem rereadGroupMapping_wrong : ¬ Disciplined 1 {.groupMapping 1 { notFoundAgain with nodeAgain := true }} :=
  fun h => not_balanced_group (by decide) rfl rfl (h.balanced _ rfl)

/-! ## Threads -/

/-- Threads that each do a sequence of these things never all wait for each other: in every state that they reach some
thread can go on, until all of them are done and nothing is locked. -/
theorem reread_never_stuck {ι : Type} [Finite ι] [DecidableEq ι] (thisNode : UInt32) (jobs : ι → List Event)
    (h : ∀ i, ∀ e ∈ jobs i, e.Avoids thisNode) {ts : ι → Thread Mutex}
    (hreach : Relation.ReflTransGen Step (fun i => ⟨[], (jobs i).flatMap (Event.ops thisNode)⟩) ts) :
    (∃ ts', Step ts ts') ∨ ∀ i, ts i = ⟨[], []⟩ := by
  have horderly : Orderly NodeLast ts := by
    induction hreach with
    | refl =>
      intro i
      have hkeeps : Keeps NodeLast ((jobs i).flatMap (Event.ops thisNode)) :=
        Keeps.flatten (List.forall_mem_map.mpr fun e he => keeps_ops (h i e he))
      exact ⟨hkeeps.balanced, hkeeps.ordered⟩
    | tail _ hs ih => exact ih.step hs
  by_cases hdone : ∃ i, (ts i).rest ≠ []
  · obtain ⟨i, hi⟩ := hdone
    exact Or.inl (horderly.progress (fun a b => rank_lt) hi)
  · right
    intro i
    have hrest : (ts i).rest = [] := by_contra fun hi => hdone ⟨i, hi⟩
    rw [← horderly.held_eq_nil hrest, ← hrest]

/-- One thread reads the user mapping of this node again while another one translates an identity. -/
def mappingJobs (b : Bool) : List Event := [if b then .userMapping 1 notFoundAgain else .translate false]

/-- The first thread has marked the mapping and holds two mutexes, one of which the other thread needs next. -/
theorem reread_never_stuck_translating :
    ∃ ts, Relation.ReflTransGen Step (fun b => ⟨[], (mappingJobs b).flatMap (Event.ops 1)⟩) ts ∧
      (ts true).held = [.node 1, .usersGroups] ∧ ∃ ts', Step ts ts' := by
  have havoids : ∀ b, ∀ e ∈ mappingJobs b, e.Avoids 1 := by
    intro b e he
    cases b with
    | true => exact List.mem_singleton.mp he ▸ fun _ _ _ _ _ _ _ => rfl
    | false => exact List.mem_singleton.mp he ▸ trivial
  let start : Bool → Thread Mutex := fun b => ⟨[], (mappingJobs b).flatMap (Event.ops 1)⟩
  let marking := Function.update start true ⟨[.usersGroups], (start true).rest.tail⟩
  have hfirst : Step start marking := .go rfl (by simp [start]) rfl
  have hfree : ∀ m (b : Bool), Op.lock (Mutex.node 1) = .lock m → m ∉ (marking b).held := by
    intro m b h
    obtain rfl := Op.lock.inj h
    cases b <;> decide
  have hsecond := @Step.go _ _ _ _ marking true (.lock (.node 1)) _ _ rfl hfree rfl
  have hreach := (Relation.ReflTransGen.single hfirst).tail hsecond
  refine ⟨_, hreach, rfl, (reread_never_stuck 1 mappingJobs havoids hreach).resolve_right fun hdone => ?_⟩
  exact absurd (congrArg Thread.held (hdone true)) (by decide)

end ZFS.Reread
