import ZlomekFS.Spec.UpdateFileLocks

/-! `update_file` gives back everything on all paths but two: where the master is not connected it unlocks the volume
twice, and where it gets no capability it puts one that it did not get. -/

namespace ZFS.Updating
open Mutexes Resource

/-- What is held while the file is locked, with something else. -/
def locked (more : List Resource) : List Resource := [fhMutex, vol, dentry, fhLock] ++ more

theorem leads_out : ∀ again, Leads (locked []) (out again) [] := by decide

theorem leads_transfer : ∀ what reintegrated whatAgain setattr, Leads (locked [trees, remote, capability])
    (transfer what reintegrated whatAgain setattr) (locked [trees, remote, capability]) := by decide

theorem leads_condRemoteClose : ∀ lastBusy,
    Leads (locked [remote, capability]) (condRemoteClose lastBusy ++ [.unlock capability]) (locked []) := by decide

theorem leads_withCapability (slow : Bool) (o : Outcome) : Leads (locked [capability]) (withCapability slow o) [] := by
  have hopen : ∀ b : Bool, Leads (locked [capability]) (if b then [] else remoteCall) (locked [capability]) := by decide
  rw [withCapability, Leads.append_iff (hopen _)]
  by_cases hfailed : o.masterBusy = false ∧ o.remoteOpen = false
  · rw [if_pos hfailed, Leads.append_iff (b := locked []) (by decide)]
    exact leads_out none
  · rw [if_neg hfailed, Leads.append_iff (b := locked [remote, capability]) ?_,
      Leads.append_iff (leads_condRemoteClose _)]
    · exact leads_out _
    · rw [Leads.append_iff (b := locked [remote, capability]) (by decide)]
      split_ifs
      · rw [List.append_assoc, Leads.append_iff (b := locked [trees, remote, capability]) (by decide),
          Leads.append_iff (leads_transfer ..)]
        decide
      · decide

theorem leads_withConnection_iff (slow : Bool) (o : Outcome) : Leads (locked []) (withConnection slow o) [] ↔
    (o.what.getD (false, false) ≠ (false, false) → (slow && o.pendingSlow) = false → o.getCapability = true) := by
  have hslow : ∀ b : Bool,
      Leads (locked []) (if b then [.lock pendingSlowReqs, .unlock pendingSlowReqs] else []) (locked []) := by decide
  unfold withConnection
  by_cases hwhat : o.what.getD (false, false) = (false, false)
  · simp [hwhat, leads_out]
  rw [if_neg hwhat, Leads.append_iff (hslow slow)]
  by_cases hbusy : (slow && o.pendingSlow) = true
  · simp [hbusy, leads_out]
  rw [if_neg hbusy, Leads.append_iff (b := locked []) (by decide)]
  cases o.getCapability with
  | false => simpa [hwhat, Bool.eq_false_iff.mpr hbusy] using by decide
  | true =>
    rw [if_pos rfl, Leads.append_iff (b := locked [capability]) (by decide)]
    exact iff_of_true (leads_withCapability slow o) fun _ _ => rfl

theorem leads_withLock_iff (slowthread : Bool) (o : Outcome) : Leads (locked []) (withLock slowthread o) [] ↔
    (o.regular = true → o.speed ≠ .none ∧ (o.Gets slowthread → o.getCapability = true)) := by
  have hupdate : ∀ b, Leads (locked []) (updateP b) (locked []) := by decide
  have hqueue : ∀ b : Bool,
      Leads (locked []) (if b then [] else [.lock updateSlowQueue, .unlock updateSlowQueue]) (locked []) := by decide
  rw [withLock, Leads.append_iff (hupdate _), Outcome.Gets]
  cases o.regular with
  | false => simp [leads_out]
  | true =>
    rw [if_neg (by decide)]
    cases o.speed with
    | none => simpa using by decide
    | slow =>
      simp only [Leads.append_iff (hqueue slowthread)]
      by_cases hpass : slowthread = false ∧ o.slowWorker = true
      · simp [hpass, leads_out]
      · have hworker : slowthread = false → o.slowWorker = false := by simpa using hpass
        rw [if_neg hpass, leads_withConnection_iff]
        simp [iff_true_intro hworker]
    | fast => cases slowthread <;> simp [leads_out, leads_withConnection_iff]

theorem leads_internalDentryLock (waited : Option Lookup) : Leads [vol, dentry] (internalDentryLock waited)
    (if waited.getD .found = .found then locked [] else []) := by
  rcases waited with _ | l
  · decide
  · cases l <;> decide

theorem leads_withDentry_iff (slowthread : Bool) (o : Outcome) : Leads [vol, dentry] (withDentry slowthread o) [] ↔
    (o.cached = true → o.waited.getD .found = .found → o.regular = true →
      o.speed ≠ .none ∧ (o.Gets slowthread → o.getCapability = true)) := by
  unfold withDentry
  cases o.cached with
  | false => simpa using by decide
  | true =>
    rw [if_neg (by decide), Leads.append_iff (leads_internalDentryLock _)]
    by_cases hwaited : o.waited.getD .found = .found
    · simp only [hwaited, if_true, leads_withLock_iff, true_implies]
    · simpa [hwaited] using by decide

/-- Everything is given back, and only while it is held, if and only if the master is connected and the capability is
got. -/
theorem updateFile_balanced_iff (slowthread : Bool) (o : Outcome) :
    run (updateFile slowthread o) [] = some [] ↔ o.Served slowthread := by
  have hlookup (l : Lookup) : Leads [] (zfsFhLookup l) (if l = .found then [vol, dentry] else []) := by
    cases l <;> decide
  have hnil : Leads ([] : List Resource) [] [] := by decide
  rw [← leads_nil, updateFile, Leads.append_iff (hlookup _), Outcome.Served, Outcome.Locks]
  by_cases hstale : o.lookup = .stale ∧ o.refreshed = true
  · rw [if_pos hstale, if_neg (by simp [hstale]), Leads.append_iff (hlookup _)]
    by_cases hfound : o.lookupAgain = .found
    · simp [hstale, hfound, leads_withDentry_iff]
    · simp [hstale, hfound, hnil]
  · have hagain : ¬ (o.lookup = .stale ∧ o.refreshed = true ∧ o.lookupAgain = .found) := fun h => hstale ⟨h.1, h.2.1⟩
    by_cases hfound : o.lookup = .found
    · simp [hfound, leads_withDentry_iff]
    · simp [hfound, hstale, hagain, hnil]

/-- A cached regular file is to be updated, and the connection is lost. -/
def notConnected : Outcome where
  lookup := .found
  refreshed := false
  lookupAgain := .found
  cached := true
  waited := none
  what := some (true, false)
  regular := true
  speed := .none
  slowWorker := false
  pendingSlow := false
  getCapability := true
  masterBusy := false
  remoteOpen := true
  loaded := true
  reintegrated := true
  whatAgain := none
  setattr := none
  incomplete := false
  lastBusy := true

/-- The mutex of the volume is unlocked twice where the master is not connected. -/
theorem notConnected_wrong : run (updateFile false notConnected) [] = none := by decide

end ZFS.Updating
