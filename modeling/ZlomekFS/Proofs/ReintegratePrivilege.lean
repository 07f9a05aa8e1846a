import ZlomekFS.Proofs.Connections
import ZlomekFS.Spec.ReintegratePrivilege

/-! The privilege to reintegrate a file belongs to one connection at a time as long as the releases of a node come over
its present connection. -/

namespace ZFS.Privilege
open Network Function Privilege.Master

variable {ι : Type}

/-! ## Descriptors of nodes -/

theorem setNode_self (net : State ι) (nod : UInt32) (n : Node) : (net.setNode nod n).nodes nod = n :=
  update_self ..

theorem setNode_of_ne (net : State ι) {nod sid : UInt32} (h : sid ≠ nod) (n : Node) :
    (net.setNode nod n).nodes sid = net.nodes sid := update_of_ne h ..

/-- A node keeps its connection until it is closed, and a request to close a connection stays. -/
structure Keeps (net net' : State ι) : Prop where
  closed : ∀ fd, (net'.fds fd).close = false → (net.fds fd).close = false
  nodeHas : ∀ sid fd gen, (net'.fds fd).close = false → NodeHas net sid fd gen → NodeHas net' sid fd gen

namespace Keeps

variable {net net' net'' : State ι}

theorem trans (h : Keeps net net') (h' : Keeps net' net'') : Keeps net net'' where
  closed fd hc := h.closed fd (h'.closed fd hc)
  nodeHas sid fd gen hc hn := h'.nodeHas sid fd gen hc (h.nodeHas sid fd gen (h'.closed fd hc) hn)

theorem setFd (net : State ι) {fd : ℕ} {data : FdData} (hgen : data.generation = (net.fds fd).generation)
    (hclose : data.close = false → (net.fds fd).close = false) : Keeps net (net.setFd fd data) := by
  have hfd : ∀ fd', ((net.setFd fd data).fds fd').generation = (net.fds fd').generation := by
    intro fd'
    by_cases h : fd' = fd
    · rw [h, State.setFd_self, hgen]
    · rw [State.setFd_of_ne _ h]
  refine ⟨fun fd' hc => ?_, fun sid fd' gen _ hn => ⟨hn.1, (hfd fd').trans hn.2⟩⟩
  by_cases h : fd' = fd
  · rw [h, State.setFd_self] at hc
    exact h ▸ hclose hc
  · rwa [State.setFd_of_ne _ h] at hc

theorem of_eq (hfds : net'.fds = net.fds) (hnodes : net'.nodes = net.nodes) : Keeps net net' := by
  refine ⟨fun fd hc => ?_, fun sid fd gen _ hn => ?_⟩
  · rwa [hfds] at hc
  · rwa [NodeHas, hfds, hnodes]

theorem setPeer (net : State ι) (f : Peer → Peer) : ∀ connection, Keeps net (net.setPeer connection f)
  | some _ => of_eq rfl rfl
  | none => of_eq rfl rfl

theorem setAuth (net : State ι) (fd : ℕ) (auth : AuthenticationStatus) (connection : Option ℕ) :
    Keeps net (net.setAuth fd auth connection) := by
  refine trans ?_ (setPeer _ _ connection)
  exact setFd net rfl fun h => h

theorem established (net : State ι) (fd : ℕ) (connection : Option ℕ) :
    Keeps net (let net := net.setAuth fd .finished connection
      net.setFd fd { net.fds fd with conn := .established }) :=
  (setAuth net fd .finished connection).trans (setFd _ rfl fun h => h)

theorem closeNetworkFd (net : State ι) : ∀ fd, Keeps net (net.closeNetworkFd fd)
  | some _ => setFd net rfl (by simp)
  | none => of_eq rfl rfl

theorem nodeFd_of_nodeHas {sid : UInt32} {fd : ℕ} {gen : UInt32} (h : NodeHas net sid fd gen)
    (hc : (net.fds fd).close = false) : net.nodeFd sid = some fd := by
  rw [State.nodeFd, h.1]
  simp [h.2, hc]

theorem setNode {nod : UInt32} (hnod : ∀ fd gen, (net.fds fd).close = false → ¬ NodeHas net nod fd gen)
    (n : Node) : Keeps net (net.setNode nod n) := by
  refine ⟨fun _ h => h, fun sid fd gen hc hn => ⟨?_, hn.2⟩⟩
  have hne : sid ≠ nod := fun h => hnod fd gen hc (h ▸ hn)
  rw [setNode_of_ne _ hne, hn.1]

theorem nodeHasValidFd (net : State ι) (nod : UInt32) : Keeps net (net.nodeHasValidFd nod) := by
  rw [State.nodeHasValidFd]
  split_ifs with h
  · refine setNode (fun fd gen hc hn => ?_) _
    rw [nodeFd_of_nodeHas hn hc] at h
    exact Option.some_ne_none _ h
  · exact of_eq rfl rfl

theorem updateNodeFd (net : State ι) (nod : UInt32) (fd : Option ℕ) {gen : UInt32} (active : Bool)
    (hgen : ∀ f ∈ fd, gen = (net.fds f).generation) : Keeps net (net.updateNodeFd nod fd gen active) := by
  unfold State.updateNodeFd
  simp only
  split
  · next hnone =>
    refine setNode (fun f g _ hn => ?_) _
    rw [hn.1] at hnone
    simp [hn.2] at hnone
  · next old hsome =>
    obtain ⟨hold, hvalid⟩ := Option.filter_eq_some_iff.mp hsome
    by_cases hfd : fd = some old
    · rw [if_pos hfd]
      refine ⟨fun _ h => h, fun sid f g hc hn => ⟨?_, hn.2⟩⟩
      by_cases hsid : sid = nod
      · rw [hsid] at hn
        rw [hsid, setNode_self, hfd, hgen old hfd]
        rw [hn.1] at hold
        rw [← hn.2, Option.some.inj hold]
      · rw [setNode_of_ne _ hsid, hn.1]
    rw [if_neg hfd]
    by_cases hdir : if active then nod < net.thisNode else net.thisNode < nod
    · rw [if_pos hdir]
      refine (closeNetworkFd net (some old)).trans (setNode (fun f g hc hn => ?_) _)
      -- the old connection was closed
      have hf : f = old := Option.some.inj ((congrArg Node.fd hn.1).symm.trans hold)
      rw [hf, State.closeNetworkFd, State.setFd_self] at hc
      exact Bool.noConfusion hc
    · rw [if_neg hdir]
      exact closeNetworkFd net fd

theorem authStage1 (net : State ι) (r : Request) (nod : UInt32) : Keeps net (net.authStage1 r nod) := by
  have hset : Keeps net ((net.setFd r.fdData { net.fds r.fdData with sid := nod, auth := .stage1 }).setPeer
      (some r.connection) fun p => { p with sid := nod }.setAuth .stage1) := by
    refine trans ?_ (setPeer _ _ _)
    exact setFd net rfl fun h => h
  refine hset.trans (updateNodeFd _ nod _ false fun f hf => ?_)
  rw [State.descriptor] at hf
  split_ifs at hf
  · exact absurd hf (Option.not_mem_none f)
  · rw [Option.some.inj hf]

theorem reject (net : State ι) (r : Request) : Keeps net (net.reject r) := by
  unfold State.reject
  split_ifs
  · exact closeNetworkFd net _
  · exact of_eq rfl rfl

variable [DecidableEq ι]

theorem nodeAuthenticate {i : ι} {fd : ℕ} {sid : UInt32} {auth : AuthenticationStatus}
    (hs : net.nodeAuthenticate i fd sid auth = some net') : Keeps net net' := by
  unfold State.nodeAuthenticate at hs
  dsimp only at hs
  split at hs
  case h_1 => cases hs
  case h_5 =>
    split_ifs at hs
    · cases hs
      exact of_eq rfl rfl
    · split at hs <;> cases hs
      case h_1 | h_2 => exact (setAuth net fd _ _).trans (of_eq rfl rfl)
      all_goals exact of_eq rfl rfl
  all_goals
    cases hs
    exact of_eq rfl rfl

theorem proceed (net : State ι) (i : ι) (a : Asking) (nod : UInt32) (more : Bool) :
    Keeps net (net.proceed i a nod more) := by
  unfold State.proceed
  dsimp only
  split
  · exact (nodeHasValidFd net nod).trans (of_eq rfl rfl)
  split_ifs
  · exact of_eq rfl rfl
  · exact of_eq rfl rfl
  · exact of_eq rfl rfl
  · unfold State.authenticated
    split
    · exact (setAuth net a.fd .stage1 _).trans (of_eq rfl rfl)
    · exact of_eq rfl rfl
    · exact (established net a.fd a.connection).trans (of_eq rfl rfl)

theorem step {e : Network.Event ι} (hs : net.step e = some net') (haccept : ∀ fd, e ≠ .accept fd)
    (hclose : ∀ fd, e ≠ .close fd) (hadd : ∀ i, e ≠ .addFdToActive i) (hfail : ∀ i, e ≠ .fail i) : Keeps net net' := by
  cases e with
  | accept fd => exact absurd rfl (haccept fd)
  | close fd => exact absurd rfl (hclose fd)
  | addFdToActive i => exact absurd rfl (hadd i)
  | fail i => exact absurd rfl (hfail i)
  | connected fd =>
    rw [State.step] at hs
    split_ifs at hs
    cases hs
    exact setFd _ rfl fun h => h
  | authStage1 i nod =>
    rw [State.step] at hs
    split at hs
    · cases nod <;> cases hs
      · exact of_eq rfl rfl
      · exact (authStage1 net _ _).trans (of_eq rfl rfl)
    · cases hs
  | authStage2 i found =>
    rw [State.step] at hs
    split at hs
    · split_ifs at hs <;> cases hs
      · exact (established net _ _).trans (of_eq rfl rfl)
      · exact of_eq rfl rfl
    · cases hs
  | reject i =>
    rw [State.step] at hs
    split at hs
    · cases hs
      exact (reject net _).trans (of_eq rfl rfl)
    · cases hs
  | nodeConnect i fd nod auth =>
    rw [State.step] at hs
    split at hs
    · split_ifs at hs
      cases hs
      let net := net.nodeHasValidFd nod
      have hconnecting : Keeps net
          (net.setFd fd { net.fds fd with conn := .connecting, auth := .none, sid := nod, isOpen := true }) :=
        setFd net rfl fun h => h
      exact ((nodeHasValidFd _ nod).trans hconnecting).trans (of_eq rfl rfl)
    · cases hs
  | again i found =>
    rw [State.step] at hs
    split at hs
    · split at hs
      · exact nodeAuthenticate hs
      · cases hs
        split_ifs
        · exact (nodeHasValidFd net _).trans (of_eq rfl rfl)
        · exact of_eq rfl rfl
    · cases hs
  | proceed i nod more =>
    rw [State.step] at hs
    split at hs
    · cases nod with
      | none =>
        cases hs
        exact of_eq rfl rfl
      | some nod =>
        dsimp only at hs
        split_ifs at hs
        cases hs
        exact proceed net i _ nod more
    · cases hs
  | dispatch _ _ _ | check _ | serve _ | authenticate _ _ _ | reply _ | noReply _ =>
    -- only the threads change
    simp only [State.step] at hs
    repeat' split at hs
    all_goals cases hs
    all_goals exact of_eq rfl rfl

end Keeps

theorem nodeHas_nodeHasValidFd {net : State ι} {nod sid : UInt32} {fd : ℕ} {gen : UInt32}
    (hc : (net.fds fd).close = false) : NodeHas (net.nodeHasValidFd nod) sid fd gen ↔ NodeHas net sid fd gen := by
  refine ⟨fun h => ?_, (Keeps.nodeHasValidFd net nod).nodeHas sid fd gen ?_⟩
  · rw [State.nodeHasValidFd] at h
    split_ifs at h with hn
    · refine ⟨?_, h.2⟩
      by_cases hsid : sid = nod
      · have := h.1
        rw [hsid, setNode_self] at this
        exact absurd (congrArg Node.fd this) (by simp)
      · simpa only [setNode_of_ne _ hsid] using h.1
    · exact h
  · rw [State.nodeHasValidFd]
    split_ifs <;> exact hc

theorem busy_of_nodeHas {net : State ι} {fh : Handle} {fd : ℕ} (hsid : fh.reintegratingSid ≠ 0)
    (h : NodeHas net fh.reintegratingSid fd fh.reintegratingGeneration) (hc : (net.fds fd).close = false)
    (t : Request) : localReintegrate net fh t true = (fh, .busy) := by
  have hconn : nodeConnected net fh.reintegratingSid = some fh.reintegratingGeneration := by
    rw [nodeConnected, Keeps.nodeFd_of_nodeHas h hc, Option.map_some, h.2]
  rw [localReintegrate, if_pos rfl, if_pos ⟨hsid, hconn⟩]

/-- The privilege outlives the destruction of unused dentries. -/
theorem cleanup_of_sid {fh : Handle} (h : fh.reintegratingSid ≠ 0) (dentry : Dentry) (threshold : ℕ) :
    cleanupUnusedDentries fh dentry threshold = some fh := by
  unfold cleanupUnusedDentries
  split_ifs with h1 h2 honly
  · rfl
  · rfl
  · refine absurd ?_ h2
    simp [dentryKey, dentryNeverCleanup, honly, h]
  · rfl

namespace Master

variable {s s' : Master ι}

/-! ## Steps -/

theorem exclusive_iff : s.Exclusive ↔ ∀ fd, s.Holder fd → s.Records fd := by
  refine ⟨Exclusive.kept, fun kept => ⟨fun fd fd' h h' => ?_, kept, fun fd fh h hfh t => ?_⟩⟩
  · obtain ⟨fh, hfh, -, hn⟩ := kept fd h
    obtain ⟨fh', hfh', -, hn'⟩ := kept fd' h'
    obtain rfl := Option.some.inj (hfh.symm.trans hfh')
    exact Option.some.inj (congrArg Node.fd (hn.1.symm.trans hn'.1))
  · obtain ⟨fh', hfh', hsid, hn⟩ := kept fd h
    obtain rfl := Option.some.inj (hfh.symm.trans hfh')
    exact busy_of_nodeHas hsid hn h.2 t

/-- A step of the network keeps the privilege if it keeps the connections of nodes and no connection begins to hold. -/
theorem Exclusive.net (h : s.Exclusive) (hk : Keeps s.net s'.net) (hfh : s'.fh = s.fh)
    (hholds : ∀ fd, s'.holds fd = true → s.holds fd = true) : s'.Exclusive := by
  refine exclusive_iff.mpr fun fd hfd => ?_
  obtain ⟨fh, hs, hsid, hn⟩ := h.kept fd ⟨hholds fd hfd.1, hk.closed fd hfd.2⟩
  exact ⟨fh, hfh.trans hs, hsid, hk.nodeHas _ _ _ hfd.2 hn⟩

/-- A record that is used for a new connection, or for none, was not the one of the holder. -/
theorem Exclusive.replace (h : s.Exclusive) {fd : ℕ} (data : FdData) (hnet : s'.net.fds = update s.net.fds fd data)
    (hnodes : s'.net.nodes = s.net.nodes) (hfh : s'.fh = s.fh) (hholds : s'.holds = update s.holds fd false) :
    s'.Exclusive := by
  refine exclusive_iff.mpr fun fd' hfd => ?_
  obtain ⟨hholder, hc⟩ := hfd
  have hne : fd' ≠ fd := by
    intro he
    rw [hholds, he, update_self] at hholder
    exact Bool.noConfusion hholder
  rw [hholds, update_of_ne hne] at hholder
  rw [hnet, update_of_ne hne] at hc
  obtain ⟨fh, hs, hsid, hn⟩ := h.kept fd' ⟨hholder, hc⟩
  refine ⟨fh, hfh.trans hs, hsid, ?_, ?_⟩
  · rw [hnodes, hn.1]
  · rw [hnet, update_of_ne hne, hn.2]

theorem exclusive_forget (h : s.Exclusive) (nod : UInt32) :
    { s with net := s.net.setNode nod { s.net.nodes nod with fd := none } }.Exclusive ↔
      ∀ fh ∈ s.fh, fh.reintegratingSid = nod → ∀ fd, ¬ s.Holder fd := by
  rw [exclusive_iff]
  refine ⟨fun h' fh hfh hsid fd hfd => ?_, fun hsafe fd hfd => ?_⟩
  · obtain ⟨fh', hfh', -, hn⟩ := h' fd hfd
    obtain rfl := Option.some.inj (hfh'.symm.trans hfh)
    have hnode := hn.1
    rw [hsid, setNode_self] at hnode
    exact Option.some_ne_none _ (congrArg Node.fd hnode).symm
  · obtain ⟨fh, hfh, hsid, hn⟩ := h.kept fd hfd
    refine ⟨fh, hfh, hsid, ?_, hn.2⟩
    exact (setNode_of_ne _ (fun he => hsafe fh hfh he fd hfd) _).trans hn.1

variable [DecidableEq ι]

section
variable (h : s.Exclusive)

include h

theorem Exclusive.addFdToActive (fd : ℕ) (nod : UInt32) (i : ι) (c : Client) :
    { s with
      net := ((s.net.initFdData fd nod).updateNodeFd nod (some fd) ((s.net.initFdData fd nod).fds fd).generation
        true).setClient i c
      holds := update s.holds fd false }.Exclusive := by
  let s1 : Master ι := { s with net := s.net.initFdData fd nod, holds := update s.holds fd false }
  have h1 : s1.Exclusive := h.replace _ rfl rfl rfl rfl
  have hk : Keeps s1.net (s1.net.updateNodeFd nod (some fd) (s1.net.fds fd).generation true) := by
    refine Keeps.updateNodeFd s1.net nod _ true fun f hf => ?_
    obtain rfl := Option.some.inj hf
    rfl
  exact h1.net (hk.trans (Keeps.of_eq rfl rfl)) rfl fun _ h => h

theorem exclusive_fail {i : ι} (hs : s.step (.network (.fail i)) = some s') :
    s'.Exclusive ↔ s.Safe (.network (.fail i)) := by
  obtain ⟨net, hstep, rfl⟩ := Option.map_eq_some_iff.mp hs
  simp only [State.step] at hstep
  split at hstep
  case h_2 => cases hstep
  case h_1 fd generation nod hclient =>
  cases hstep
  let s1 : Master ι :=
    { s with net := if (s.net.fds fd).generation = generation then s.net.closeNetworkFd (some fd) else s.net }
  have h1 : s1.Exclusive := by
    refine h.net ?_ rfl fun _ h => h
    dsimp only [s1]
    split_ifs
    · exact Keeps.closeNetworkFd s.net (some fd)
    · exact Keeps.of_eq rfl rfl
  have holder1 (fd' : ℕ) : s1.Holder fd' ↔ s.Holder fd' ∧ ¬ (fd' = fd ∧ (s.net.fds fd).generation = generation) := by
    by_cases hgen : (s.net.fds fd).generation = generation
    · by_cases he : fd' = fd
      · simp [Holder, s1, hgen, State.closeNetworkFd, he, State.setFd_self]
      · simp [Holder, s1, hgen, State.closeNetworkFd, he, State.setFd_of_ne]
    · simp [Holder, s1, hgen]
  cases nod with
  | none =>
    refine iff_of_true (h1.net (Keeps.of_eq rfl rfl) rfl fun _ h => h) fun _ _ _ hfailed => ?_
    rw [hclient] at hfailed
    cases hfailed
  | some nod =>
    have hforget := exclusive_forget h1 nod
    refine ⟨fun h' fd₂ generation₂ nod₂ hfailed fh hfh hsid fd' hfd' => ?_, fun hsafe => ?_⟩
    · rw [hclient] at hfailed
      cases hfailed
      by_contra hn
      exact hforget.mp (h'.net (Keeps.of_eq rfl rfl) rfl fun _ h => h) fh hfh hsid fd' ((holder1 fd').mpr ⟨hfd', hn⟩)
    · refine (hforget.mpr fun fh hfh hsid fd' hfd' => ?_).net (Keeps.of_eq rfl rfl) rfl fun _ h => h
      obtain ⟨hfd', hn⟩ := (holder1 fd').mp hfd'
      exact hn (hsafe fd generation nod hclient fh hfh hsid fd' hfd')

theorem exclusive_network {e : Network.Event ι} (hs : s.step (.network e) = some s') :
    s'.Exclusive ↔ s.Safe (.network e) := by
  by_cases hfail : ∃ i, e = .fail i
  · obtain ⟨i, rfl⟩ := hfail
    exact exclusive_fail h hs
  rw [not_exists] at hfail
  have hsafe : s.Safe (.network e) := by
    cases e with
    | fail i => exact absurd rfl (hfail i)
    | _ => trivial
  refine iff_of_true ?_ hsafe
  obtain ⟨net, hstep, rfl⟩ := Option.map_eq_some_iff.mp hs
  cases e with
  | accept fd =>
    rw [State.step] at hstep
    split_ifs at hstep
    cases hstep
    exact h.replace _ (update_idem _ _ _) rfl rfl rfl
  | close fd =>
    rw [State.step] at hstep
    split_ifs at hstep
    cases hstep
    exact h.replace _ rfl rfl rfl rfl
  | addFdToActive i =>
    rw [State.step] at hstep
    split at hstep
    · rename_i fd nod auth hclient
      cases hstep
      rw [renewed, hclient]
      exact h.addFdToActive fd nod i _
    · cases hstep
  | _ => exact h.net (Keeps.step hstep (by simp) (by simp) (by simp) hfail) rfl fun _ h => h

/-! ## Requests -/

theorem Exclusive.serve_uncached (hfh : s.fh = none) (i : ι) (r : Request) (status : Bool) :
    (s.serve i r status).Exclusive := by
  have hserve : s.serve i r status = { s with net := s.net.setWorker i .idle } := by simp only [serve, hfh]
  rw [hserve]
  exact h.net (Keeps.of_eq rfl rfl) rfl fun _ h => h

theorem exclusive_release {i : ι} {r : Request} (hr : (s.net.workers i).handled = some r) :
    (s.serve i r false).Exclusive ↔ s.ReleaseSafe i := by
  simp only [ReleaseSafe, hr, Option.mem_some_iff, forall_eq', exclusive_iff]
  cases hfh : s.fh with
  | none =>
    exact iff_of_true (h.serve_uncached hfh i r false).kept fun fh h => absurd h (Option.not_mem_none fh)
  | some fh =>
    simp only [Option.mem_some_iff, forall_eq']
    by_cases hsid : fh.reintegratingSid = r.fromSid
    · have hnone : ∀ fd, ¬ (s.serve i r false).Records fd := by
        rintro fd ⟨fh', hfh', hne, -⟩
        simp only [serve, hfh, localReintegrate, Bool.false_eq_true, if_false, hsid, ne_eq, not_true,
          Option.some.injEq] at hfh'
        exact hne (hfh' ▸ rfl)
      have holder : ∀ fd, (s.serve i r false).Holder fd ↔ s.Holder fd ∧ ¬ (s.Current r ∧ fd = r.fdData) := by
        intro fd
        simp only [serve, State.setWorker, hfh, localReintegrate, hsid, Holder, Bool.false_eq_true, if_false, ne_eq,
          not_true, true_and, false_and]
        split_ifs with hcur
        · by_cases he : fd = r.fdData
          · simp [he, hcur]
          · simp [he]
        · simp [hcur]
      refine ⟨fun h' _ fd hfd => ?_, fun hsafe fd hfd => ?_⟩
      · by_contra hn
        exact hnone fd (h' fd ((holder fd).mpr ⟨hfd, hn⟩))
      · have hfd := (holder fd).mp hfd
        exact absurd (hsafe hsid fd hfd.1) hfd.2
    · refine iff_of_true (fun fd hfd => ?_) fun he => absurd he hsid
      simp only [serve, hfh, localReintegrate, Bool.false_eq_true, if_false, ne_eq, hsid, not_false_eq_true, if_true,
        reduceCtorEq, false_and, Holder, Records] at hfd ⊢
      obtain ⟨fh', hfh', hrec⟩ := h.kept fd hfd
      exact ⟨fh', hfh.symm.trans hfh', hrec⟩

theorem serve_busy {i : ι} {r : Request} {fh : Handle} (hfh : s.fh = some fh)
    (hres : localReintegrate s.net fh r true = (fh, .busy)) : (s.serve i r true).Exclusive := by
  refine h.net ?_ ?_ fun fd hfd => ?_
  · simp only [serve, hfh]
    split_ifs
    · exact (Keeps.nodeHasValidFd ..).trans (Keeps.of_eq rfl rfl)
    · exact Keeps.of_eq rfl rfl
  · simp only [serve, hfh, hres]
  · simpa only [serve, hfh, hres, reduceCtorEq, false_and, if_false] using hfd

/-- The privilege is granted only when nobody has it, so the new holder alone has to be recorded. -/
theorem serve_granted {i : ι} {r : Request} {fh : Handle} (hfh : s.fh = some fh)
    (hres : localReintegrate s.net fh r true = (⟨r.fromSid, r.generation⟩, .ok)) :
    (s.serve i r true).Exclusive ↔ (s.Current r → (s.net.fds r.fdData).close = false →
      r.fromSid ≠ 0 ∧ NodeHas s.net r.fromSid r.fdData r.generation) := by
  have hfree : ∀ fd, ¬ s.Holder fd := by
    intro fd hfd
    have := h.refused fd fh hfd hfh r
    rw [hres] at this
    exact Status.noConfusion (congrArg Prod.snd this)
  have hclose : ∀ fd, ((s.serve i r true).net.fds fd).close = (s.net.fds fd).close := by
    intro fd
    simp only [serve, hfh, State.nodeHasValidFd]
    split_ifs <;> rfl
  have hhas : ∀ fd, (s.net.fds fd).close = false →
      (NodeHas (s.serve i r true).net r.fromSid fd r.generation ↔ NodeHas s.net r.fromSid fd r.generation) := by
    intro fd hc
    simp only [serve, hfh]
    split_ifs
    · exact nodeHas_nodeHasValidFd hc
    · exact Iff.rfl
  have holder : ∀ fd, (s.serve i r true).Holder fd ↔
      s.Current r ∧ fd = r.fdData ∧ (s.net.fds fd).close = false := by
    intro fd
    rw [Holder, hclose]
    simp only [serve, hfh, hres, true_and]
    split_ifs with hcur
    · by_cases he : fd = r.fdData
      · simp [he, hcur]
      · simp only [update_of_ne he, he, hcur, false_and, and_false, iff_false]
        exact hfree fd
    · simp only [hcur, false_and, iff_false]
      exact hfree fd
  have records : ∀ fd, (s.serve i r true).Records fd ↔
      r.fromSid ≠ 0 ∧ NodeHas (s.serve i r true).net r.fromSid fd r.generation := by
    intro fd
    simp [Records, serve, hfh, hres]
  rw [exclusive_iff]
  refine ⟨fun h' hcur hc => ?_, fun hsafe fd hfd => ?_⟩
  · obtain ⟨hsid, hn⟩ := (records _).mp (h' r.fdData ((holder _).mpr ⟨hcur, rfl, hc⟩))
    exact ⟨hsid, (hhas _ hc).mp hn⟩
  · obtain ⟨hcur, rfl, hc⟩ := (holder fd).mp hfd
    obtain ⟨hsid, hn⟩ := hsafe hcur hc
    exact (records _).mpr ⟨hsid, (hhas _ hc).mpr hn⟩

theorem exclusive_acquire {i : ι} {r : Request} (hr : (s.net.workers i).handled = some r) :
    (s.serve i r true).Exclusive ↔ s.Safe (.reintegrate i true) := by
  simp only [Safe, hr, Option.mem_some_iff, forall_eq']
  cases hfh : s.fh with
  | none =>
    exact iff_of_true (h.serve_uncached hfh i r true) fun fh h => absurd h (Option.not_mem_none fh)
  | some fh =>
    simp only [Option.mem_some_iff, forall_eq']
    by_cases hbusy : s.Busy fh
    · have hres : localReintegrate s.net fh r true = (fh, .busy) := by
        exact if_pos hbusy
      exact iff_of_true (serve_busy h hfh hres) fun hfree => absurd hbusy hfree
    · have hres : localReintegrate s.net fh r true = (⟨r.fromSid, r.generation⟩, .ok) := by
        exact if_neg hbusy
      rw [serve_granted h hfh hres]
      exact ⟨fun h _ => h, fun h => h hbusy⟩

theorem exclusive_step {e : Event ι} (hs : s.step e = some s') : s'.Exclusive ↔ s.Safe e := by
  cases e with
  | network e => exact exclusive_network h hs
  | closeNetworkFd fd =>
    obtain rfl := Option.some.inj hs
    exact iff_of_true (h.net (Keeps.closeNetworkFd s.net (some fd)) rfl fun _ h => h) trivial
  | reintegrate i status =>
    rw [step] at hs
    split at hs
    · rename_i r hworker
      obtain rfl := Option.some.inj hs
      have hr : (s.net.workers i).handled = some r := by rw [hworker]; rfl
      cases status with
      | true => exact exclusive_acquire h hr
      | false => exact exclusive_release h hr
    · cases hs
  | reintegrateVer i =>
    rw [step] at hs
    split at hs
    · rename_i r hworker
      obtain rfl := Option.some.inj hs
      exact exclusive_release h (by rw [hworker]; rfl)
    · cases hs
  | create =>
    rw [step] at hs
    split_ifs at hs with hnone
    obtain rfl := Option.some.inj hs
    refine iff_of_true (exclusive_iff.mpr fun fd hfd => ?_) trivial
    obtain ⟨fh, hfh, -⟩ := h.kept fd hfd
    rw [hfh] at hnone
    cases hnone
  | cleanup dentry threshold =>
    obtain ⟨fh, hfh, rfl⟩ := Option.map_eq_some_iff.mp hs
    refine iff_of_true (exclusive_iff.mpr fun fd hfd => ?_) trivial
    obtain ⟨fh', hfh', hsid, hn⟩ := h.kept fd hfd
    obtain rfl := Option.some.inj (hfh.symm.trans hfh')
    exact ⟨fh, cleanup_of_sid hsid dentry threshold, hsid, hn⟩

end

end Master

open Privilege.Master in
/-- A connection that was granted the privilege keeps it, and nobody else is granted it, in all states of a run if and
only if no release comes from an earlier connection of the node of the holder, the privilege is granted only to the
connection that the node in the request has, and no node loses a connection that is not closed. -/
theorem privilege_iff {ι : Type} [DecidableEq ι] (thisNode : UInt32) (es : List (Event ι)) :
    (∀ x ∈ Runs.visited Master.step (Master.start thisNode) es, x.Exclusive) ↔
      ∀ x ∈ Runs.taken Master.step (Master.start thisNode) es, x.1.Safe x.2 := by
  refine Runs.visited_iff_taken (I := fun _ => True) (fun _ _ _ _ _ _ _ => trivial)
    (fun s e s' _ h hs => exclusive_step h hs) es _ trivial (exclusive_iff.mpr fun fd hfd => ?_)
  exact Bool.noConfusion hfd.1

def reintegratePacket (status : UInt8) : Protocol.DC :=
  packet ([37, 0, 0, 0, 0, 0, 0, 0, 3, 0, 0, 0, 26, 0, 0, 0] ++ List.replicate 20 1 ++ [status])

/-- The node `sid` connects and authenticates. -/
def login (fd : ℕ) (i : Fin 3) (sid : UInt32) : List (Event (Fin 3)) :=
  [.accept fd, .dispatch fd i stage1Packet, .check i, .authStage1 i (some sid), .dispatch fd i stage2Packet, .check i,
    .authStage2 i true].map .network

def acquire (fd : ℕ) (i : Fin 3) : List (Event (Fin 3)) :=
  [.network (.dispatch fd i (reintegratePacket 1)), .network (.check i), .reintegrate i true]

/-- Node 2 is granted the privilege, its connection is lost while its release is in a thread, and it is granted the
privilege again on a new connection. Then the release is served, and node 3 is granted the privilege as well. -/
def staleRelease : List (Event (Fin 3)) :=
  .create :: login 0 0 2 ++ acquire 0 0 ++
    [.network (.dispatch 0 1 (reintegratePacket 0)), .network (.check 1), .network (.close 0)] ++
    login 0 0 2 ++ acquire 0 0 ++ [.reintegrate 1 false] ++ login 1 2 3 ++ acquire 1 2

theorem staleRelease_wrong : ¬ ∀ x ∈ Runs.visited Master.step (Master.start 1) staleRelease, x.Exclusive := by
  intro h
  have hrun : (Runs.run Master.step (Master.start 1) staleRelease).map (fun s =>
      (s.holds 0, (s.net.fds 0).close, s.holds 1, (s.net.fds 1).close)) = some (true, false, true, false) := by rfl
  obtain ⟨s, hs, heq⟩ := Option.map_eq_some_iff.mp hrun
  simp only [Prod.mk.injEq] at heq
  have hone := (h s (Runs.mem_visited_of_run _ hs)).one 0 1 ⟨heq.1, heq.2.1⟩ ⟨heq.2.2.1, heq.2.2.2⟩
  exact Nat.zero_ne_one hone

end ZFS.Privilege
