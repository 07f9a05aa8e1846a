import ZlomekFS.Spec.ReintegrateDir

/-! The versions of a directory after its journal was reintegrated. What becomes of each entry is read
off the answers first; the loop is then a filter and a count, and the versions follow from the two. -/

namespace ZFS

inductive EntryFate
  | void
  | accepted
  /-- The master made the change but the entry stays in the journal. -/
  | acceptedKept
  /-- The entry stays in the journal: a conflict, or the master refused the change. -/
  | left
  | stopped
  | aborted
  deriving DecidableEq, Repr

namespace EntryFate

def flow : EntryFate → Flow
  | void | accepted => .removed
  | acceptedKept | left => .keep
  | stopped => .out
  | aborted => .abort

def counts : EntryFate → Bool
  | accepted | acceptedKept => true
  | _ => false

def stays : EntryFate → Bool
  | acceptedKept | left => true
  | _ => false

def goesOn : EntryFate → Bool
  | stopped | aborted => false
  | _ => true

end EntryFate

def missingCode (r : ℤ) : Bool := r = ENOENT || r = ESTALE

def newFate (ans : EntryAns) (l : LocalFile) : EntryFate :=
  match l.masterFh, ans.createRemoteFh with
  | none, .error _ => .left
  | none, .ok _ => if ans.flushMetadata then .accepted else .acceptedKept
  | some _, _ =>
    if ans.remoteFileInfo = ZFS_OK then if ans.reintegrateAdd = ZFS_OK then .accepted else .left
    else if missingCode ans.remoteFileInfo then
      match ans.deleteTreeName with
      | .fails _ => .stopped
      | .missing => .void
      | .deleted => .aborted
    else .stopped

def addFate (ans : EntryAns) : EntryFate :=
  match ans.localLookup, ans.remoteLookup with
  | none, _ => .void
  | some l, .ok (file, _) => if l.masterFh = some file then .void else .left
  | some l, .error r => if missingCode r then newFate ans l else .stopped

def delFate (ans : EntryAns) (e : JournalEntry) : EntryFate :=
  if !ans.localExists ∧ ans.reintegrateDeletedDir ≠ ZFS_OK then .stopped
  else
    match ans.remoteLookup with
    | .ok (file, attr) =>
      if file = e.masterFh then
        if !ans.localExists ∧ attr.type = .reg ∧ e.masterVersion ≠ attr.version then .left
        else if ans.reintegrateDel = ZFS_OK then .accepted else .left
      else .void
    | .error r => if missingCode r then .void else .stopped

def entryFate (root : Bool) (ans : EntryAns) (e : JournalEntry) : EntryFate :=
  if root ∧ specialName e.name then .void
  else
    match e.oper with
    | .add => addFate ans
    | .del => delFate ans e

/-- A round of the loop with a known fate: what it does to the counter, that it leaves `kept` alone, and
how the loop goes on. -/
structure FateOk (fate : EntryFate) (s : DirReint) (r : DirReint × Flow) : Prop where
  flow : r.2 = fate.flow
  kept : r.1.kept = s.kept
  count : r.1.versionIncrease = if fate.counts then u64 (s.versionIncrease + 1) else s.versionIncrease

section Rounds
variable {ans : EntryAns} {e : JournalEntry} {s : DirReint}

theorem FateOk.of_frame (s' : DirReint) {fate : EntryFate} {r : DirReint × Flow} (h : FateOk fate s' r) (hk : s'.kept = s.kept)
    (hv : s'.versionIncrease = s.versionIncrease) : FateOk fate s r :=
  ⟨h.flow, h.kept.trans hk, by rw [h.count, hv]⟩

theorem reintegrateNew_fate (l : LocalFile) : FateOk (newFate ans l) s (reintegrateNew ans l s) := by
  unfold newFate reintegrateNew
  cases l.masterFh with
  | none =>
    cases ans.createRemoteFh with
    | error r => exact ⟨rfl, rfl, rfl⟩
    | ok res =>
      simp only
      split_ifs with hflush
      · exact ⟨rfl, rfl, rfl⟩
      · exact ⟨rfl, rfl, rfl⟩
  | some masterFh =>
    simp only [missingCode, Bool.or_eq_true, decide_eq_true_eq]
    split_ifs with hinfo hadd hmissing
    · exact ⟨rfl, rfl, rfl⟩
    · exact ⟨rfl, rfl, rfl⟩
    · cases ans.deleteTreeName <;> exact ⟨rfl, rfl, rfl⟩
    · exact ⟨rfl, rfl, rfl⟩

theorem reintegrateAddEntry_fate : FateOk (addFate ans) s (reintegrateAddEntry ans e s) := by
  unfold addFate reintegrateAddEntry
  cases ans.localLookup with
  | none => exact ⟨rfl, rfl, rfl⟩
  | some l =>
    simp only
    -- the conflict on the name is no part of the fate
    refine FateOk.of_frame (if addCancelsConflict l ans.remoteLookup then s.cancelConflict e.name else s)
      ?_ (by split_ifs <;> rfl) (by split_ifs <;> rfl)
    generalize (if addCancelsConflict l ans.remoteLookup then s.cancelConflict e.name else s) = s1
    cases ans.remoteLookup with
    | ok res =>
      simp only
      split_ifs with hsame
      · exact ⟨rfl, rfl, rfl⟩
      · exact ⟨rfl, rfl, rfl⟩
    | error r =>
      simp only [missingCode, Bool.or_eq_true, decide_eq_true_eq]
      split_ifs with hmissing
      · exact reintegrateNew_fate l
      · exact ⟨rfl, rfl, rfl⟩

theorem reintegrateDelEntry_fate : FateOk (delFate ans e) s (reintegrateDelEntry ans e s) := by
  unfold delFate reintegrateDelEntry
  by_cases hdeleted : !ans.localExists ∧ ans.reintegrateDeletedDir ≠ ZFS_OK
  · rw [if_pos hdeleted, if_pos hdeleted]
    exact ⟨rfl, rfl, rfl⟩
  · rw [if_neg hdeleted, if_neg hdeleted]
    simp only [missingCode, Bool.or_eq_true, decide_eq_true_eq]
    cases ans.remoteLookup with
    | ok res | error r => simp only; split_ifs <;> exact ⟨rfl, rfl, rfl⟩

theorem reintegrateEntry_fate (root : Bool) (ans : EntryAns) (e : JournalEntry) (s : DirReint) :
    FateOk (entryFate root ans e) s (reintegrateEntry root ans e s) := by
  unfold entryFate reintegrateEntry
  split_ifs with hspecial
  · exact ⟨rfl, rfl, rfl⟩
  · cases e.oper with
    | add => exact reintegrateAddEntry_fate
    | del => exact reintegrateDelEntry_fate

end Rounds

/-! ## The loop over the journal -/

/-- The entries from the `k`-th on with their fates. -/
def fates (env : DirEnv) (root : Bool) : ℕ → List JournalEntry → List (JournalEntry × EntryFate)
  | _, [] => []
  | k, e :: rest => (e, entryFate root (env.entry k) e) :: fates env root (k + 1) rest

def accepted (fs : List (JournalEntry × EntryFate)) : ℕ := fs.countP (·.2.counts)

/-- The entries that stay in the journal when the loop goes through it. -/
def leftEntries (fs : List (JournalEntry × EntryFate)) : List JournalEntry := (fs.filter (·.2.stays)).map (·.1)

def GoesThrough (fs : List (JournalEntry × EntryFate)) : Prop := ∀ f ∈ fs, f.2.goesOn

section Loop
variable {env : DirEnv} {root : Bool} {k : ℕ} {e : JournalEntry} {rest : List JournalEntry} {s : DirReint}

theorem reintegrateEntries_next (rest : List JournalEntry) (s : DirReint)
    (hgo : (entryFate root (env.entry k) e).goesOn) :
    ∃ s1 : DirReint, reintegrateEntries env root k (e :: rest) s = reintegrateEntries env root (k + 1) rest s1 ∧
      s1.kept = s.kept ++ (if (entryFate root (env.entry k) e).stays then [e] else []) ∧
      s1.versionIncrease =
        if (entryFate root (env.entry k) e).counts then u64 (s.versionIncrease + 1) else s.versionIncrease := by
  obtain ⟨hflow, hkept, hcount⟩ := reintegrateEntry_fate root (env.entry k) e s
  rw [reintegrateEntries]
  generalize reintegrateEntry root (env.entry k) e s = r at hflow hkept hcount
  generalize entryFate root (env.entry k) e = fate at *
  obtain ⟨s1, flow⟩ := r
  subst hflow
  cases fate with
  | void | accepted | acceptedKept | left => exact ⟨_, rfl, by simpa [EntryFate.stays] using hkept, hcount⟩
  | stopped | aborted => exact absurd hgo (by decide)

/-- The loop does not come to the end of the journal after an entry that stops it; the entry and those
after it stay. -/
theorem reintegrateEntries_halt (hgo : ¬ (entryFate root (env.entry k) e).goesOn) {s' : DirReint} {atEnd : Bool}
    (h : reintegrateEntries env root k (e :: rest) s = some (s', atEnd)) :
    atEnd = false ∧ s'.kept = s.kept ++ e :: rest := by
  obtain ⟨hflow, hkept, -⟩ := reintegrateEntry_fate root (env.entry k) e s
  rw [reintegrateEntries] at h
  generalize reintegrateEntry root (env.entry k) e s = r at hflow hkept h
  generalize entryFate root (env.entry k) e = fate at *
  obtain ⟨s1, flow⟩ := r
  subst hflow
  cases fate with
  | stopped =>
    obtain ⟨rfl, rfl⟩ := Prod.mk.inj (Option.some.inj h)
    exact ⟨rfl, by rw [← hkept]⟩
  | aborted => exact absurd h (by simp [EntryFate.flow])
  | void | accepted | acceptedKept | left => exact absurd rfl hgo

/-- A loop that no entry stops filters the journal and counts the changes. -/
theorem reintegrateEntries_through (entries : List JournalEntry) (k : ℕ) (s : DirReint)
    (hs : s.versionIncrease < 2 ^ 64) (hgo : GoesThrough (fates env root k entries)) :
    ∃ s', reintegrateEntries env root k entries s = some (s', true) ∧
      s'.kept = s.kept ++ leftEntries (fates env root k entries) ∧
      s'.versionIncrease = u64 (s.versionIncrease + accepted (fates env root k entries)) := by
  induction entries generalizing k s with
  | nil => exact ⟨s, rfl, by simp [fates, leftEntries], by simp [fates, accepted, u64_of_lt hs]⟩
  | cons e rest ih =>
    obtain ⟨s1, hnext, hkept, hcount⟩ := reintegrateEntries_next rest s (hgo _ List.mem_cons_self)
    have hs1 : s1.versionIncrease < 2 ^ 64 := by
      rw [hcount]
      split_ifs
      exacts [u64_lt _, hs]
    obtain ⟨s', hrun, hkept', hcount'⟩ := ih (k + 1) s1 hs1 (fun f hf => hgo f (List.mem_cons_of_mem _ hf))
    refine ⟨s', hnext.trans hrun, ?_, ?_⟩
    · rw [hkept', hkept]
      simp only [fates, leftEntries, List.filter_cons]
      split_ifs <;> simp
    · rw [hcount', hcount]
      simp only [fates, accepted, List.countP_cons]
      split_ifs
      · rw [u64_add_u64, add_right_comm, add_assoc]
      · simp

theorem reintegrateEntries_stopped (entries : List JournalEntry) (k : ℕ) (s : DirReint)
    (hstop : ¬ GoesThrough (fates env root k entries)) {s' : DirReint} {atEnd : Bool}
    (h : reintegrateEntries env root k entries s = some (s', atEnd)) : atEnd = false := by
  induction entries generalizing k s with
  | nil => exact absurd (by simp [fates, GoesThrough]) hstop
  | cons e rest ih =>
    by_cases hgo : (entryFate root (env.entry k) e).goesOn
    · obtain ⟨s1, hnext, -⟩ := reintegrateEntries_next rest s hgo
      refine ih (k + 1) s1 (fun hrest => hstop ?_) (hnext ▸ h)
      intro f hf
      rcases List.mem_cons.mp hf with rfl | hf
      · exact hgo
      · exact hrest f hf
    · exact (reintegrateEntries_halt hgo h).1

end Loop

/-! ## The versions after the loop -/

/-- What the versions of a directory shall satisfy after `reintegrate_dir`. -/
structure DirVersionsOk (env : DirEnv) (dir : DirFh) (res : DirRes) : Prop where
  pending : res.dir.journal ≠ [] → res.dir.masterVersion < res.dir.localVersion
  localVersion : dir.localVersion ≤ res.dir.localVersion
  masterVersion : dir.masterVersion ≤ res.dir.masterVersion
  increment : ∀ inc attr, res.versionInc = some inc → env.getattr = .ok attr → attr.version + inc < 2 ^ 64

namespace DirFh

def fates (dir : DirFh) (env : DirEnv) : List (JournalEntry × EntryFate) :=
  ZFS.fates env dir.localVolumeRoot 0 dir.journal

/-- The versions get settled against the remote attributes `attr`. -/
structure Settles (dir : DirFh) (env : DirEnv) (attr : Fattr) : Prop where
  atEnd : GoesThrough (dir.fates env)
  accepted : u64 (accepted (dir.fates env)) ≠ 0
  privilege : env.privilege = ZFS_OK
  getattr : env.getattr = .ok attr
  lookupMetadata : env.lookupMetadata

/-- When the versions get settled: if entries are left, somebody else changed the directory meanwhile, and
there is room above the versions. -/
def RoomForPending (dir : DirFh) (env : DirEnv) : Prop :=
  ∀ attr, dir.Settles env attr →
    if leftEntries (dir.fates env) = [] then
      attr.version = u64 (dir.masterVersion + u64 (ZFS.accepted (dir.fates env))) ∨
        dir.masterVersion + u64 (ZFS.accepted (dir.fates env)) < 2 ^ 64
    else
      attr.version ≠ u64 (dir.masterVersion + u64 (ZFS.accepted (dir.fates env))) ∧
        dir.masterVersion + u64 (ZFS.accepted (dir.fates env)) + 1 < 2 ^ 64 ∧ attr.version + 1 < 2 ^ 64

theorem settle_journal (dir : DirFh) (remote inc : ℕ) : (dir.settle remote inc).1.journal = dir.journal := by
  unfold settle
  split_ifs <;> rfl

theorem settle_same {dir : DirFh} {remote inc : ℕ} (h : remote = u64 (dir.masterVersion + inc)) :
    (dir.settle remote inc).1.localVersion = max dir.localVersion remote ∧
      (dir.settle remote inc).1.masterVersion = max dir.localVersion remote ∧
      (dir.settle remote inc).2 = max dir.localVersion remote := by
  unfold settle
  rw [if_pos h]
  simp only
  split_ifs <;> omega

theorem settle_changed_nil {dir : DirFh} {remote inc : ℕ} (h : remote ≠ u64 (dir.masterVersion + inc))
    (hj : dir.journal = []) :
    (dir.settle remote inc).1.masterVersion = u64 (dir.masterVersion + inc) ∧
      dir.localVersion ≤ (dir.settle remote inc).1.localVersion := by
  unfold settle
  rw [if_neg h, hj]
  refine ⟨rfl, ?_⟩
  simp only [ne_eq, not_true_eq_false, if_false]
  split_ifs <;> omega

/-- Somebody else changed the directory and entries are left: the local version gets above the others if
there is room. -/
theorem settle_changed_left {dir : DirFh} {remote inc : ℕ} (h : remote ≠ u64 (dir.masterVersion + inc))
    (hj : dir.journal ≠ []) (hl : dir.localVersion < 2 ^ 64) (hr : remote < 2 ^ 64) :
    (dir.settle remote inc).1.masterVersion = u64 (dir.masterVersion + inc) ∧
      ((dir.settle remote inc).1.masterVersion < (dir.settle remote inc).1.localVersion ∧
        dir.localVersion ≤ (dir.settle remote inc).1.localVersion ↔
        u64 (dir.masterVersion + inc) + 1 < 2 ^ 64 ∧ remote + 1 < 2 ^ 64) := by
  unfold settle
  rw [if_neg h]
  refine ⟨rfl, ?_⟩
  have hm : u64 (dir.masterVersion + inc) < 2 ^ 64 := u64_lt _
  generalize u64 (dir.masterVersion + inc) = masterVersion at *
  simp only [ne_eq, hj, not_false_eq_true, if_true, u64]
  split_ifs <;> omega

/-- The version for the master is not below the one it has. -/
theorem settle_version (dir : DirFh) {remote : ℕ} (inc : ℕ) (hl : dir.localVersion < 2 ^ 64) (hr : remote < 2 ^ 64) :
    remote ≤ (dir.settle remote inc).2 ∧ (dir.settle remote inc).2 < 2 ^ 64 := by
  by_cases h : remote = u64 (dir.masterVersion + inc)
  · rw [(settle_same h).2.2]
    omega
  · unfold settle
    rw [if_neg h]
    exact ⟨le_rfl, hr⟩

/-- The settled versions satisfy what they shall exactly when there is room for the entries left. -/
theorem settle_ok_iff (dir : DirFh) {remote inc : ℕ} (hlt : dir.masterVersion < dir.localVersion)
    (hl : dir.localVersion < 2 ^ 64) (hr : remote < 2 ^ 64) (hinc : inc < 2 ^ 64) :
    ((dir.journal ≠ [] → (dir.settle remote inc).1.masterVersion < (dir.settle remote inc).1.localVersion) ∧
      dir.localVersion ≤ (dir.settle remote inc).1.localVersion ∧
      dir.masterVersion ≤ (dir.settle remote inc).1.masterVersion) ↔
    if dir.journal = [] then remote = u64 (dir.masterVersion + inc) ∨ dir.masterVersion + inc < 2 ^ 64
    else remote ≠ u64 (dir.masterVersion + inc) ∧ dir.masterVersion + inc + 1 < 2 ^ 64 ∧ remote + 1 < 2 ^ 64 := by
  -- a wrapped sum is below the master version
  have hu : 2 ^ 64 ≤ dir.masterVersion + inc ∧ u64 (dir.masterVersion + inc) < dir.masterVersion ∨
      dir.masterVersion + inc < 2 ^ 64 ∧ u64 (dir.masterVersion + inc) = dir.masterVersion + inc := by
    unfold u64
    omega
  by_cases hsame : remote = u64 (dir.masterVersion + inc)
  · obtain ⟨h1, h2, -⟩ := settle_same hsame
    rw [h1, h2]
    split_ifs with hj
    · simp only [hj, ne_eq, not_true_eq_false, false_implies, true_and, hsame, true_or, iff_true]
      omega
    · simp [hj, hsame]
  · split_ifs with hj
    · obtain ⟨h1, h2⟩ := settle_changed_nil hsame hj
      simp only [hj, ne_eq, not_true_eq_false, false_implies, true_and, hsame, false_or, h1, h2]
      omega
    · obtain ⟨h1, h2⟩ := settle_changed_left hsame hj hl hr
      simp only [hj, ne_eq, not_false_eq_true, forall_const, hsame, true_and]
      rw [← and_assoc, h2, h1]
      omega

end DirFh

/-! ## The whole call -/

section Call
variable {env : DirEnv} {dir : DirFh} {attr : Fattr} {res : DirRes}

theorem DirFh.finish_settles (dir : DirFh) (attr : Fattr) {inc : ℕ} {remote : Fattr} (hinc : inc ≠ 0) (hp : env.privilege = ZFS_OK)
    (hg : env.getattr = .ok remote) (hm : env.lookupMetadata) :
    (dir.finish env attr inc).1.localVersion = (dir.settle remote.version inc).1.localVersion ∧
      (dir.finish env attr inc).1.masterVersion = (dir.settle remote.version inc).1.masterVersion ∧
      (dir.finish env attr inc).1.journal = dir.journal ∧
      (dir.finish env attr inc).2.2 = some (sub64 (dir.settle remote.version inc).2 remote.version) := by
  unfold DirFh.finish
  simp [hinc, hp, hg, hm, DirFh.settle_journal]

theorem DirFh.finish_keeps (dir : DirFh) (attr : Fattr) {inc : ℕ} (hr : ∀ remote, env.getattr = .ok remote → remote.version < 2 ^ 64)
    (h : ∀ remote, inc ≠ 0 → env.privilege = ZFS_OK → env.getattr = .ok remote → ¬ env.lookupMetadata) :
    (dir.finish env attr inc).1.localVersion = dir.localVersion ∧
      (dir.finish env attr inc).1.masterVersion = dir.masterVersion ∧
      (dir.finish env attr inc).1.journal = dir.journal ∧ ∀ i, (dir.finish env attr inc).2.2 = some i → i = 0 := by
  unfold DirFh.finish
  by_cases hout : inc = 0 ∨ env.privilege ≠ ZFS_OK
  · simp [hout]
  · rw [if_neg hout]
    push Not at hout
    cases hg : env.getattr with
    | error r => simp
    | ok remote =>
      have hm : env.lookupMetadata = false := by simpa using h remote hout.1 hout.2 hg
      simp only [hm, Bool.false_eq_true, if_false, true_and]
      rintro i ⟨rfl⟩
      rw [sub64_of_le le_rfl (hr remote hg), Nat.sub_self]

theorem reintegrateDir_stopped (h : reintegrateDir env dir attr = some res) (hstop : ¬ GoesThrough (dir.fates env)) :
    res.dir.localVersion = dir.localVersion ∧ res.dir.masterVersion = dir.masterVersion ∧ res.versionInc = none := by
  obtain ⟨⟨s, atEnd⟩, hrun, rfl⟩ := Option.map_eq_some_iff.mp h
  obtain rfl := reintegrateEntries_stopped _ _ _ hstop hrun
  exact ⟨rfl, rfl, rfl⟩

def DirFh.afterLoop (dir : DirFh) (env : DirEnv) (conflicts : List Name) : DirFh :=
  { dir with journal := leftEntries (dir.fates env), conflicts := conflicts }

theorem reintegrateDir_through (attr : Fattr) (hgo : GoesThrough (dir.fates env)) :
    ∃ res conflicts, reintegrateDir env dir attr = some res ∧
      res.dir = ((dir.afterLoop env conflicts).finish env attr (u64 (accepted (dir.fates env)))).1 ∧
      res.versionInc = ((dir.afterLoop env conflicts).finish env attr (u64 (accepted (dir.fates env)))).2.2 := by
  obtain ⟨s, hrun, hkept, hcount⟩ :=
    reintegrateEntries_through dir.journal 0 ⟨[], 0, false, dir.conflicts, []⟩ (by norm_num) hgo
  rw [Nat.zero_add] at hcount
  rw [List.nil_append] at hkept
  refine ⟨_, s.conflicts, by rw [reintegrateDir, hrun, Option.map_some], ?_⟩
  simp only [if_true, DirFh.afterLoop, DirFh.fates, ← hkept, ← hcount, and_self]

theorem versionsOk_of_kept {conflicts : List Name} (hlt : dir.masterVersion < dir.localVersion)
    (hr : ∀ remote, env.getattr = .ok remote → remote.version < 2 ^ 64) (hgo : GoesThrough (dir.fates env))
    (hset : ¬ ∃ remote, dir.Settles env remote)
    (hdir : res.dir = ((dir.afterLoop env conflicts).finish env attr (u64 (accepted (dir.fates env)))).1)
    (hinc : res.versionInc = ((dir.afterLoop env conflicts).finish env attr (u64 (accepted (dir.fates env)))).2.2) :
    DirVersionsOk env dir res := by
  obtain ⟨h1, h2, -, h4⟩ := DirFh.finish_keeps (dir.afterLoop env conflicts) attr hr
    (fun remote hacc hp hg hm => hset ⟨remote, hgo, hacc, hp, hg, hm⟩)
  rw [← hdir] at h1 h2
  refine ⟨fun _ => ?_, h1.ge, h2.ge, fun inc remote hsent hg => ?_⟩
  · rw [h1, h2]
    exact hlt
  · rw [h4 inc (hinc ▸ hsent)]
    exact hr remote hg

theorem versionsOk_iff_of_settles {conflicts : List Name} {remote : Fattr}
    (hlt : dir.masterVersion < dir.localVersion) (hl : dir.localVersion < 2 ^ 64) (hr : remote.version < 2 ^ 64)
    (hset : dir.Settles env remote)
    (hdir : res.dir = ((dir.afterLoop env conflicts).finish env attr (u64 (accepted (dir.fates env)))).1)
    (hinc : res.versionInc = ((dir.afterLoop env conflicts).finish env attr (u64 (accepted (dir.fates env)))).2.2) :
    DirVersionsOk env dir res ↔ dir.RoomForPending env := by
  obtain ⟨h1, h2, h3, h4⟩ := DirFh.finish_settles (dir.afterLoop env conflicts) attr
    hset.accepted hset.privilege hset.getattr hset.lookupMetadata
  have hroom := DirFh.settle_ok_iff (dir.afterLoop env conflicts) hlt hl hr
    (u64_lt (accepted (dir.fates env)))
  have hver := DirFh.settle_version (dir.afterLoop env conflicts) (u64 (accepted (dir.fates env))) hl hr
  rw [← h1, ← h2, ← hdir] at hroom
  -- the answer to `remote_getattr` is the only one the room is asked for
  have hremote : ∀ a, env.getattr = .ok a → remote = a := fun a ha => Except.ok.inj (hset.getattr.symm.trans ha)
  have huniq : dir.RoomForPending env ↔ _ :=
    ⟨fun h => h remote hset, fun h a ha => by rw [← hremote a ha.getattr]; exact h⟩
  rw [huniq]
  refine Iff.trans ⟨fun h => ?_, fun h => ⟨?_, h.2.1, h.2.2, ?_⟩⟩ hroom
  · exact ⟨fun hj => h.pending (by rwa [hdir, h3]), h.localVersion, h.masterVersion⟩
  · exact fun hj => h.1 (by rwa [hdir, h3] at hj)
  · intro inc a hsent ha
    rw [hinc, h4, sub64_of_le hver.1 hver.2, Option.some.injEq] at hsent
    rw [← hremote a ha]
    omega

/-- After `reintegrate_dir` what is left of the journal will be reintegrated later and no version number
went down or wrapped, exactly when there was room for the entries left. -/
theorem reintegrateDir_versions_iff (env : DirEnv) (dir : DirFh) (attr : Fattr)
    (hlt : dir.masterVersion < dir.localVersion) (hl : dir.localVersion < 2 ^ 64)
    (hr : ∀ remote, env.getattr = .ok remote → remote.version < 2 ^ 64) :
    (∀ res, reintegrateDir env dir attr = some res → DirVersionsOk env dir res) ↔ dir.RoomForPending env := by
  by_cases hgo : GoesThrough (dir.fates env)
  · obtain ⟨res, conflicts, hres, hdir, hinc⟩ := reintegrateDir_through attr hgo
    have hone : (∀ res, reintegrateDir env dir attr = some res → DirVersionsOk env dir res) ↔
        DirVersionsOk env dir res := by simp [hres]
    rw [hone]
    by_cases hset : ∃ remote, dir.Settles env remote
    · obtain ⟨remote, hset⟩ := hset
      exact versionsOk_iff_of_settles hlt hl (hr remote hset.getattr) hset hdir hinc
    · refine ⟨fun _ remote h => absurd ⟨remote, h⟩ hset, fun _ => ?_⟩
      exact versionsOk_of_kept hlt hr hgo hset hdir hinc
  · refine ⟨fun _ remote hset => absurd hset.atEnd hgo, fun _ res hres => ?_⟩
    obtain ⟨h1, h2, h3⟩ := reintegrateDir_stopped hres hgo
    exact ⟨fun _ => by rwa [h1, h2], h1.ge, h2.ge, by simp [h3]⟩

end Call

/-! ## Two new files, one of them in a conflict; their names are `a` and `b` -/

def newEntry (name : Name) (ino : UInt32) : JournalEntry := ⟨.add, name, (1, ino, 1), ⟨0, 0, 0, 0, 0⟩, 0⟩

/-- Both files are new here. The master creates the first one, and has another file under the name of
the second one when `taken`. -/
def newFilesEnv (taken : Bool) (version : ℕ) : DirEnv where
  entry k :=
    { localLookup := some ⟨⟨1, 1, 1, .ofNat k, 1⟩, ⟨.reg, 420, 0, 0, 0, 1⟩, none, ⟨true, false, false, 1, 0, 420, 0, 0⟩⟩
      remoteLookup := if k = 1 ∧ taken then .ok (⟨2, 1, 1, 9, 1⟩, ⟨.reg, 420, 0, 0, 0, 1⟩) else .error ENOENT
      createRemoteFh := .ok (⟨2, 1, 1, .ofNat (10 + k), 1⟩, ⟨.reg, 420, 0, 0, 0, 1⟩)
      flushMetadata := true, remoteFileInfo := ZFS_OK, reintegrateAdd := ZFS_OK, deleteTreeName := .missing
      localExists := true, reintegrateDeletedDir := ZFS_OK, reintegrateDel := ZFS_OK }
  privilege := ZFS_OK
  getattr := .ok ⟨.dir, 493, 0, 0, 0, version⟩
  lookupMetadata := true
  reintegrateVer := ZFS_OK

def newFilesDir : DirFh := ⟨3, 3, 1, [newEntry [97] 0, newEntry [98] 1], false, []⟩

theorem reintegrateDir_versions_new_files :
    newFilesDir.masterVersion < newFilesDir.localVersion ∧
      ∀ res, reintegrateDir (newFilesEnv false 3) newFilesDir ⟨.dir, 493, 0, 0, 0, 1⟩ = some res →
        DirVersionsOk (newFilesEnv false 3) newFilesDir res := by
  refine ⟨by decide, (reintegrateDir_versions_iff (newFilesEnv false 3) newFilesDir ⟨.dir, 493, 0, 0, 0, 1⟩
    (by decide) (by decide) (fun remote h => ?_)).mpr (fun remote h => ?_)⟩
  · obtain rfl := Except.ok.inj h
    decide
  · rw [if_pos (by decide)]
    exact Or.inr (by decide)

/-- The second file is in a create-create conflict and its entry stays, but the versions become equal. -/
theorem reintegrateDir_drops_pending :
    ∃ res, reintegrateDir (newFilesEnv true 2) newFilesDir ⟨.dir, 493, 0, 0, 0, 1⟩ = some res ∧
      res.dir.journal = [newEntry [98] 1] ∧ res.dir.localVersion = 3 ∧ res.dir.masterVersion = 3 ∧
      ¬ DirVersionsOk (newFilesEnv true 2) newFilesDir res := by
  refine ⟨_, rfl, by decide, by decide, by decide, fun h => ?_⟩
  exact absurd (h.pending (by decide)) (by decide)

end ZFS
