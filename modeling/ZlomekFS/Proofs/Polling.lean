import ZlomekFS.Spec.Polling

/-! The pass meets every connection once, but it meets it with an entry of its own only if no connection was added
since the array was filled; then the pass is a run of the network. -/

namespace ZFS.Network.Polling
open Indexed Function List

variable (pfd : ℕ → PollFd) (now : ℕ) (res : ℕ → Results) {a : Member}

theorem take_swapRemove {l : List Member} {i : ℕ} (hi : i < l.length) : (swapRemove l i).take i = l.take i := by
  obtain ⟨top, htop⟩ : ∃ top, l.getLast? = some top := ⟨_, getLast?_eq_some_getLast (ne_nil_of_length_pos (by omega))⟩
  apply ext_getElem?
  intro j
  rw [getElem?_take, getElem?_take, Holds.getElem?_swapRemove htop i j hi]
  split_ifs
  · omega
  · rfl
  · omega
  · rfl

/-! ## One pass -/

/-- The entries of the members of `active`, with these members. -/
def entries (pfd : ℕ → PollFd) (l : List Member) : List (PollFd × Member) := l.zipIdx.map fun x => (pfd x.2, x.1)

theorem Scan.visit_spec {c : Scan} {i : ℕ} (h : c.active[i]? = some a) :
    (c.visit pfd now res i).visits = c.visits ++ [(pfd i, a)] ∧
      (c.visit pfd now res i).active.take i = c.active.take i ∧ i ≤ (c.visit pfd now res i).active.length := by
  obtain ⟨hi, -⟩ := List.getElem?_eq_some_iff.mp h
  -- the members below the index stay where they are
  have htake : (c.visit pfd now res i).active.take i = c.active.take i := by
    rw [visit, h]
    dsimp only
    split_ifs
    · exact take_swapRemove hi
    · rfl
  have hlen := congrArg length htake
  simp only [length_take] at hlen
  refine ⟨?_, htake, by omega⟩
  rw [visit, h]
  dsimp only
  split_ifs <;> rfl

theorem Scan.pass_visits (k : ℕ) : ∀ c : Scan, k ≤ c.active.length →
    (Scan.pass pfd now res k c).visits = c.visits ++ (entries pfd (c.active.take k)).reverse := by
  induction k with
  | zero =>
    intro c _
    simp [pass, entries]
  | succ k ih =>
    intro c hk
    have hat := getElem?_eq_getElem (show k < c.active.length from hk)
    obtain ⟨hvis, htake, hlen⟩ := Scan.visit_spec pfd now res hat
    have hsucc : entries pfd (c.active.take (k + 1)) = entries pfd (c.active.take k) ++ [(pfd k, c.active[k])] := by
      rw [take_succ_eq_append_getElem hk, entries, zipIdx_append, map_append, length_take,
        Nat.min_eq_left (Nat.le_of_succ_le hk), Nat.zero_add]
      rfl
    rw [pass, ih _ hlen, hvis, htake, hsucc, reverse_append, append_assoc]
    rfl

variable {pfd} in
theorem mem_entries {l : List Member} {v : PollFd × Member} :
    v ∈ entries pfd l ↔ ∃ i, l[i]? = some v.2 ∧ v.1 = pfd i := by
  simp only [entries, mem_map, Prod.exists, mk_mem_zipIdx_iff_getElem?]
  constructor
  · rintro ⟨a, i, ha, rfl⟩
    exact ⟨i, ha, rfl⟩
  · rintro ⟨i, ha, hv⟩
    exact ⟨v.2, i, ha, by rw [← hv]⟩

/-! ## The network -/

section
variable {ι : Type} (s : Network.State ι)

/-- The network with the records of the pass. -/
def Scan.net (c : Scan) : Network.State ι := { s with fds := fun fd => (c.fdData fd).toFdData }

theorem Scan.net_update (c : Scan) (fd : ℕ) (d : FdData) (active : List Member) (visits : List (PollFd × Member)) :
    (Scan.mk (update c.fdData fd d) active visits).net s = (c.net s).setFd fd d.toFdData := by
  unfold net Network.State.setFd
  simp only [apply_update fun _ => FdData.toFdData]

theorem process_spec (r : Results) (e : Revents) (d : FdData) :
    (process now r e d).1.toFdData = d.toFdData ∨ d.conn = .connecting ∧
      process now r e d = ({ d with conn := .active }, false) := by
  unfold process
  dsimp only
  split_ifs with _ hconnecting
  · exact Or.inl rfl
  · exact Or.inr ⟨hconnecting, rfl⟩
  all_goals exact Or.inl rfl

variable [DecidableEq ι] {c : Scan} {i : ℕ}

/-- With an entry of its own, a connection takes a step of the network or none. -/
theorem Scan.visit_net (h : c.active[i]? = some a) (hfd : (pfd i).fd = a.fd)
    (hconn : (c.fdData a.fd).connection ≠ none) :
    (c.visit pfd now res i).net s = c.net s ∨
      (c.net s).step (.connected a.fd) = some ((c.visit pfd now res i).net s) ∨
      (c.net s).step (.close a.fd) = some ((c.visit pfd now res i).net s) := by
  rw [visit, h, hfd]
  dsimp only
  obtain hsame | ⟨hconnecting, hactive⟩ := process_spec now (res i) (pfd i).revents (c.fdData a.fd)
  · have hself : (c.net s).setFd a.fd (c.fdData a.fd).toFdData = c.net s := by
      rw [Network.State.setFd, show (c.fdData a.fd).toFdData = (c.net s).fds a.fd from rfl, update_eq_self]
    split_ifs
    · refine Or.inr (Or.inr ?_)
      rw [closeActiveFd, net_update, net_update, hsame, hself]
      simp only [update_self, hsame]
      exact if_pos hconn
    · refine Or.inl ?_
      rw [net_update, hsame, hself]
  · rw [hactive, if_neg Bool.false_ne_true, net_update]
    exact Or.inr (Or.inl (if_pos ⟨hconn, hconnecting⟩))

theorem Scan.visit_of_ne (h : c.active[i]? = some a) (hfd : (pfd i).fd = a.fd) {fd : ℕ} (hne : fd ≠ a.fd) :
    (c.visit pfd now res i).fdData fd = c.fdData fd := by
  rw [visit, h, hfd]
  dsimp only
  split_ifs
  · simp only [closeActiveFd, update_of_ne hne]
  · exact update_of_ne hne ..

/-- A pass in which each connection has an entry of its own is a run of the network. -/
theorem Scan.pass_net (k : ℕ) : ∀ c : Scan, k ≤ c.active.length →
    (∀ i < k, ∀ a ∈ c.active[i]?, (pfd i).fd = a.fd) → (∀ a ∈ c.active.take k, (c.fdData a.fd).connection ≠ none) →
    ((c.active.take k).map (·.fd)).Nodup →
    ∃ es, Runs.run Network.State.step (c.net s) es = some ((Scan.pass pfd now res k c).net s) := by
  induction k with
  | zero => exact fun c _ _ _ _ => ⟨[], rfl⟩
  | succ k ih =>
    intro c hk hfd hconn hnodup
    have hat := getElem?_eq_getElem (show k < c.active.length from hk)
    have hown := hfd k (Nat.lt_succ_self k) _ hat
    rw [take_succ_eq_append_getElem hk] at hconn hnodup
    obtain ⟨hnodup, -, hdisj⟩ := nodup_append.mp (map_append ▸ hnodup)
    obtain ⟨-, htake, hlen⟩ := Scan.visit_spec pfd now res hat
    obtain ⟨es, hes⟩ : ∃ es, Runs.run Network.State.step ((c.visit pfd now res k).net s) es =
        some ((Scan.pass pfd now res (k + 1) c).net s) := by
      refine ih _ hlen ?_ ?_ (htake ▸ hnodup)
      · intro i hi b hb
        refine hfd i (Nat.lt_succ_of_lt hi) b ?_
        rwa [← getElem?_take_of_lt hi, ← htake, getElem?_take_of_lt hi]
      · intro b hb
        rw [htake] at hb
        have hne : b.fd ≠ c.active[k].fd :=
          hdisj _ (mem_map_of_mem hb) _ (mem_map_of_mem (mem_singleton_self _))
        rw [visit_of_ne pfd now res hat hown hne]
        exact hconn b (mem_append_left _ hb)
    obtain h | h | h := visit_net pfd now res s hat hown (hconn _ (mem_append_right _ (mem_singleton_self _)))
    · exact ⟨es, h ▸ hes⟩
    · exact ⟨.connected _ :: es, by rw [Runs.run, h]; exact hes⟩
    · exact ⟨.close _ :: es, by rw [Runs.run, h]; exact hes⟩

end

/-! ## One round -/

theorem State.acts_spec (acts : List Action) : ∀ s : State, ∃ added : List Member,
    (acts.foldl act s).active = s.active ++ added ∧ (acts.foldl act s).pfd = s.pfd ∧
      (∀ a ∈ added, s.opened ≤ a.connection) ∧ (added = [] ↔ ∀ fd now, .addFdToActive fd now ∉ acts) := by
  induction acts with
  | nil =>
    intro s
    exact ⟨[], by simp⟩
  | cons e acts ih =>
    intro s
    obtain ⟨added, hact, hpfd, hnew, hnil⟩ := ih (s.act e)
    rw [foldl_cons]
    cases e with
    | addFdToActive fd now =>
      refine ⟨⟨fd, s.opened⟩ :: added, by rw [hact, act, addFdToActive, append_assoc]; rfl, hpfd, ?_, ?_⟩
      · intro a ha
        obtain rfl | ha := mem_cons.mp ha
        · exact le_rfl
        · exact Nat.le_of_succ_le (hnew a ha)
      · exact iff_of_false (cons_ne_nil _ _) fun h => h fd now mem_cons_self
    | closeNetworkFd fd | update fd data => exact ⟨added, hact, hpfd, hnew, by simpa using hnil⟩

/-- The entries match the connections in the pass if and only if no connection is added between filling the array and
the pass. -/
theorem networkMain_matched_iff (s : State) (acts : List Action) (poll : Option (ℕ → Revents)) (now : ℕ)
    (res : ℕ → Results) :
    (∀ r ∈ s.networkMain acts poll now res, Matched r.1 r.2) ↔
      (poll ≠ none → ∀ fd now, .addFdToActive fd now ∉ acts) := by
  cases poll with
  | none => simp [State.networkMain]
  | some revents =>
    obtain ⟨added, hact, hpfd, hnew, hnil⟩ := State.acts_spec acts s.fill
    set s' := acts.foldl State.act s.fill with hs'
    set pfd := s'.polled (s.active.length + s.acceptConnections.toNat) revents with hpolled
    have hsrc : ∀ i, (pfd i).fd = (s.fillPfd i).fd ∧ (pfd i).source = (s.fillPfd i).source := by
      intro i
      rw [hpolled, State.polled, hpfd]
      split_ifs <;> exact ⟨rfl, rfl⟩
    have hvis := Scan.pass_visits pfd now res s'.active.length
      ⟨s'.fdData, s'.active, []⟩ le_rfl
    rw [nil_append, take_length] at hvis
    simp only [State.networkMain, Option.map_some, Option.mem_some_iff, forall_eq', ne_eq, reduceCtorEq, not_false_eq_true,
      forall_const, ← hnil]
    rw [← hs', ← hpolled]
    constructor
    · intro hm
      by_contra hne
      obtain ⟨a, rest, rfl⟩ := exists_cons_of_ne_nil hne
      -- the entry at the index of the first connection that was added
      have hmem := hm.entry (pfd s.active.length, a) (by
        rw [hvis, mem_reverse]
        exact mem_entries.mpr ⟨s.active.length, by rw [hact]; simp [State.fill], rfl⟩)
      have hlt := s.fillPfd_lt _ _ ((hsrc _).2.symm.trans hmem.2)
      exact absurd (hnew a mem_cons_self) (not_le.mpr hlt)
    · rintro rfl
      rw [append_nil] at hact
      refine ⟨?_, ?_⟩
      · intro v hv
        rw [hvis, mem_reverse, mem_entries] at hv
        obtain ⟨i, hi, hv⟩ := hv
        have hat : s.active[i]? = some v.2 := by rwa [hact] at hi
        rw [hv, (hsrc i).1, (hsrc i).2, State.fillPfd, hat]
        exact ⟨rfl, rfl⟩
      · rw [hvis, map_reverse]
        simp [entries, Function.comp_def]

def State.start (mainSocket : ℕ) : State where
  mainSocket := mainSocket
  acceptConnections := true
  fdData _ := ⟨⟨0, .none, .none, 0, false, false, none⟩, 0, 0, 0, 0⟩
  active := []
  pfd _ := ⟨0, ⟨false, false, false⟩, .none⟩
  opened := 0
  active_lt := nofun
  pfd_lt := nofun

/-- A client is waiting on the listening socket when `poll` returns, and another thread adds a connection. The main
thread reads from the record of the listening socket and closes the new connection. -/
theorem added_closed :
    ∃ r ∈ (State.start 3).networkMain [.addFdToActive 7 1] (some fun _ => ⟨false, true, false⟩) 1 fun _ => ⟨none, 0, 0⟩,
      r.2.visits = [(⟨3, ⟨false, true, false⟩, .listening⟩, ⟨7, 0⟩)] ∧ r.2.active = [] ∧ ¬ Matched r.1 r.2 := by
  refine ⟨_, rfl, rfl, rfl, fun hm => ?_⟩
  have := (hm.entry _ mem_cons_self).2
  cases this

end ZFS.Network.Polling
