import ZlomekFS.Spec.Connections

/-! A connection has the level and the node that its own messages have given to it, as long as no record is used again
while a request or a reply of the connection before is handled. -/

namespace ZFS.Network

open Protocol Function

theorem networkWorker_auth_le {dir : Direction} {dc : DC} {auth : AuthenticationStatus} {proc : ZfsProc}
    (h : networkWorker dir dc auth = .run proc) : proc.auth.code ≤ auth.code := by
  have herror : ∀ dir status, sendErrorReply dir status ≠ .run proc := by
    intro dir status
    unfold sendErrorReply
    split_ifs
    · exact nofun
    · exact nofun
  unfold networkWorker at h
  split at h
  · cases h
  split_ifs at h
  · exact absurd h (herror _ _)
  split at h
  · exact absurd h (herror _ _)
  split at h
  · exact absurd h (herror _ _)
  split_ifs at h with hdir hauth hargs
  · exact absurd h (herror _ _)
  · exact absurd h (herror _ _)
  · cases h
    omega
  · exact absurd h (herror _ _)

theorem Peer.reached_le_setAuth (p : Peer) (auth : AuthenticationStatus) :
    p.reached.code ≤ (p.setAuth auth).reached.code := by
  unfold setAuth
  dsimp only
  split_ifs with h
  · exact h.le
  · exact le_rfl

structure FdData.Same (data data' : FdData) : Prop where
  auth : data'.auth = data.auth
  sid : data'.sid = data.sid
  isOpen : data'.isOpen = data.isOpen
  connection : data'.connection = data.connection

theorem FdData.Same.refl (data : FdData) : data.Same data := ⟨rfl, rfl, rfl, rfl⟩

namespace State

variable {ι : Type} {s s' : State ι}

theorem setFd_self (s : State ι) (fd : ℕ) (data : FdData) : (s.setFd fd data).fds fd = data := update_self ..

theorem setFd_of_ne (s : State ι) {fd fd' : ℕ} (h : fd' ≠ fd) (data : FdData) :
    (s.setFd fd data).fds fd' = s.fds fd' := update_of_ne h ..

/-! ## Steps that do not change levels -/

structure Touched (s s' : State ι) : Prop where
  fds : ∀ fd, (s.fds fd).Same (s'.fds fd)
  workers : s'.workers = s.workers
  clients : s'.clients = s.clients
  opened : s'.opened = s.opened
  peers : s'.peers = s.peers

namespace Touched

theorem refl (s : State ι) : Touched s s := ⟨fun _ => FdData.Same.refl _, rfl, rfl, rfl, rfl⟩

theorem trans {t : State ι} (h : Touched s t) (h' : Touched t s') : Touched s s' where
  fds fd := ⟨(h'.fds fd).auth.trans (h.fds fd).auth, (h'.fds fd).sid.trans (h.fds fd).sid,
    (h'.fds fd).isOpen.trans (h.fds fd).isOpen, (h'.fds fd).connection.trans (h.fds fd).connection⟩
  workers := h'.workers.trans h.workers
  clients := h'.clients.trans h.clients
  opened := h'.opened.trans h.opened
  peers := h'.peers.trans h.peers

theorem setNode (s : State ι) (nod : UInt32) (n : Node) : Touched s (s.setNode nod n) :=
  ⟨fun _ => FdData.Same.refl _, rfl, rfl, rfl, rfl⟩

theorem setFd (s : State ι) {fd : ℕ} {data : FdData} (h : (s.fds fd).Same data) : Touched s (s.setFd fd data) := by
  refine ⟨fun fd' => ?_, rfl, rfl, rfl, rfl⟩
  by_cases hfd : fd' = fd
  · subst hfd
    rw [setFd_self]
    exact h
  · rw [setFd_of_ne s hfd]
    exact FdData.Same.refl _

theorem closeNetworkFd (s : State ι) : ∀ fd, Touched s (s.closeNetworkFd fd)
  | some _ => setFd s ⟨rfl, rfl, rfl, rfl⟩
  | none => refl s

theorem nodeHasValidFd (s : State ι) (nod : UInt32) : Touched s (s.nodeHasValidFd nod) := by
  unfold State.nodeHasValidFd
  split_ifs
  · exact setNode s _ _
  · exact refl s

theorem updateNodeFd (s : State ι) (nod : UInt32) (fd : Option ℕ) (generation : UInt32) (activeOpen : Bool) :
    Touched s (s.updateNodeFd nod fd generation activeOpen) := by
  unfold State.updateNodeFd
  dsimp only
  split
  · exact setNode s _ _
  · split_ifs
    · exact setNode s _ _
    · exact (closeNetworkFd s _).trans (setNode _ _ _)
    · exact closeNetworkFd s _
    · exact (closeNetworkFd s _).trans (setNode _ _ _)
    · exact closeNetworkFd s _

theorem reject (s : State ι) (r : Request) : Touched s (s.reject r) := by
  unfold State.reject
  split_ifs
  · exact closeNetworkFd s _
  · exact refl s

end Touched

/-! ## The invariant -/

def WorkerOk (s : State ι) : Worker → Prop
  | .idle => True
  | .received r | .rejecting r => r.connection < s.opened
  | .serving r proc => r.connection < s.opened ∧ proc.auth.code ≤ (s.peers r.connection).reached.code

def ClientOk (s : State ι) : Client → Prop
  | .connecting fd nod _ => (s.fds fd).isOpen = true ∧ (s.fds fd).connection = none ∧ (s.fds fd).sid = nod
  | .asked a => ∀ c, a.connection = some c → c < s.opened
  | .answered a => a.connection ≠ none ∧ ∀ c, a.connection = some c → c < s.opened
  | _ => True

/-- What a record says about its connection, if it has one. -/
structure RecordOk (peers : ℕ → Peer) (opened : ℕ) (data : FdData) : Prop where
  own : ∀ c, data.connection = some c → (data.auth = (peers c).auth ∧ data.sid = (peers c).sid) ∧ c < opened
  unowned : data.connection = none → data.auth = .none
  closed : data.isOpen = false → data.connection = none ∧ data.sid = 0

structure Inv (s : State ι) : Prop where
  record : ∀ fd, RecordOk s.peers s.opened (s.fds fd)
  distinct : ∀ fd fd' c, (s.fds fd).connection = some c → (s.fds fd').connection = some c → fd = fd'
  workers : ∀ i, s.WorkerOk (s.workers i)
  clients : ∀ i, s.ClientOk (s.clients i)
  apart : ∀ i j fd, (s.clients i).pending = some fd → (s.clients j).pending = some fd → i = j

theorem Inv.separate (h : s.Inv) : s.Separate where
  own fd c hc := ((h.record fd).own c hc).1
  served i r proc hi := by
    have hok := h.workers i
    rw [hi] at hok
    exact hok.2

theorem start_inv (thisNode : UInt32) : (start thisNode : State ι).Inv where
  record _ := ⟨nofun, fun _ => rfl, fun _ => ⟨rfl, rfl⟩⟩
  distinct _ _ _ hc := by cases hc
  workers _ := trivial
  clients _ := trivial
  apart _ _ _ hi := by cases hi

namespace Inv

section
variable (h : s.Inv)

include h

theorem fresh {fd c : ℕ} (hc : (s.fds fd).connection = some c) : c < s.opened := ((h.record fd).own c hc).2

theorem touched (ht : Touched s s') : s'.Inv where
  record fd := by
    obtain ⟨hauth, hsid, hopen, hconn⟩ := ht.fds fd
    have hok := h.record fd
    rw [ht.peers, ht.opened]
    refine ⟨?_, ?_, ?_⟩
    · rw [hauth, hsid, hconn]
      exact hok.own
    · rw [hauth, hconn]
      exact hok.unowned
    · rw [hopen, hsid, hconn]
      exact hok.closed
  distinct fd fd' c hc hc' := by
    rw [(ht.fds _).connection] at hc hc'
    exact h.distinct fd fd' c hc hc'
  workers i := by
    have hok := h.workers i
    rw [ht.workers]
    cases hw : s.workers i with
    | idle => trivial
    | received r | rejecting r | serving r proc =>
      rw [hw] at hok
      simpa only [WorkerOk, ht.opened, ht.peers] using hok
  clients i := by
    have hok := h.clients i
    rw [ht.clients]
    cases hw : s.clients i with
    | idle | again | failed => trivial
    | connecting fd nod auth =>
      rw [hw] at hok
      simpa only [ClientOk, (ht.fds fd).isOpen, (ht.fds fd).connection, (ht.fds fd).sid] using hok
    | asked a | answered a =>
      rw [hw] at hok
      simpa only [ClientOk, ht.opened] using hok
  apart i j fd hi hj := by
    rw [ht.clients] at hi hj
    exact h.apart i j fd hi hj

theorem change {fd opened : ℕ} {data : FdData} {peers : ℕ → Peer} (hopened : s.opened ≤ opened)
    (hpeers : ∀ c < s.opened, data.connection ≠ some c → peers c = s.peers c)
    (hreached : ∀ c < s.opened, (s.peers c).reached.code ≤ (peers c).reached.code)
    (hrecord : RecordOk peers opened data)
    (hapart : ∀ c, data.connection = some c → ∀ fd' ≠ fd, (s.fds fd').connection ≠ some c)
    (hclients : ∀ i, (s.clients i).pending ≠ some fd) :
    Inv { s with fds := update s.fds fd data, peers := peers, opened := opened } where
  record fd' := by
    dsimp only
    by_cases hfd : fd' = fd
    · subst hfd
      rw [update_self]
      exact hrecord
    · rw [update_of_ne hfd]
      refine ⟨fun c hc => ?_, (h.record fd').unowned, (h.record fd').closed⟩
      have hlt := h.fresh hc
      rw [hpeers c hlt fun heq => hapart c heq fd' hfd hc]
      exact ⟨((h.record fd').own c hc).1, hlt.trans_le hopened⟩
  distinct fd1 fd2 c h1 h2 := by
    dsimp only at h1 h2
    by_cases hfd1 : fd1 = fd
    · by_cases hfd2 : fd2 = fd
      · exact hfd1.trans hfd2.symm
      · rw [hfd1, update_self] at h1
        rw [update_of_ne hfd2] at h2
        exact absurd h2 (hapart c h1 fd2 hfd2)
    · rw [update_of_ne hfd1] at h1
      by_cases hfd2 : fd2 = fd
      · rw [hfd2, update_self] at h2
        exact absurd h1 (hapart c h2 fd1 hfd1)
      · rw [update_of_ne hfd2] at h2
        exact h.distinct fd1 fd2 c h1 h2
  workers i := by
    have hok := h.workers i
    dsimp only
    cases hw : s.workers i with
    | idle => trivial
    | received r | rejecting r =>
      rw [hw] at hok
      exact lt_of_lt_of_le hok hopened
    | serving r proc =>
      rw [hw] at hok
      exact ⟨hok.1.trans_le hopened, hok.2.trans (hreached _ hok.1)⟩
  clients i := by
    have hok := h.clients i
    have hpending := hclients i
    dsimp only
    cases hw : s.clients i with
    | idle | again | failed => trivial
    | connecting fd' nod auth =>
      rw [hw] at hok hpending
      have hfd : fd' ≠ fd := fun heq => hpending (congrArg some heq)
      simp only [ClientOk, update_of_ne hfd]
      exact hok
    | asked a =>
      rw [hw] at hok
      exact fun c hc => (hok c hc).trans_le hopened
    | answered a =>
      rw [hw] at hok
      exact ⟨hok.1, fun c hc => (hok.2 c hc).trans_le hopened⟩
  apart := h.apart

theorem pending {i : ι} {fd : ℕ} (hi : (s.clients i).pending = some fd) :
    (s.fds fd).isOpen = true ∧ (s.fds fd).connection = none := by
  have hok := h.clients i
  cases hc : s.clients i with
  | connecting fd' nod auth =>
    rw [hc] at hok hi
    obtain rfl := Option.some.inj hi
    exact ⟨hok.1, hok.2.1⟩
  | idle | again | asked | answered | failed =>
    rw [hc] at hi
    cases hi

theorem setPeer {fd c : ℕ} {data : FdData} {f : Peer → Peer} (hc : (s.fds fd).connection = some c)
    (hconn : data.connection = some c) (hopen : data.isOpen = (s.fds fd).isOpen)
    (hauth : data.auth = (f (s.peers c)).auth) (hsid : data.sid = (f (s.peers c)).sid)
    (hreached : (s.peers c).reached.code ≤ (f (s.peers c)).reached.code) :
    ((s.setFd fd data).setPeer (some c) f).Inv := by
  refine h.change le_rfl ?_ ?_ ⟨?_, ?_, ?_⟩ ?_ ?_
  · intro c' _ hne
    refine update_of_ne ?_ ..
    rintro rfl
    exact hne hconn
  · intro c' _
    by_cases heq : c' = c
    · subst heq
      rw [State.setFd, update_self]
      exact hreached
    · rw [State.setFd, update_of_ne heq]
  · intro c' hc'
    obtain rfl : c = c' := Option.some.inj (hconn.symm.trans hc')
    rw [State.setFd, update_self]
    exact ⟨⟨hauth, hsid⟩, h.fresh hc⟩
  · intro hnone
    rw [hconn] at hnone
    cases hnone
  · intro ho
    rw [hopen] at ho
    rw [((h.record fd).closed ho).1] at hc
    cases hc
  · intro c' hc' fd' hfd hother
    obtain rfl : c = c' := Option.some.inj (hconn.symm.trans hc')
    exact hfd (h.distinct fd' fd c hother hc)
  · intro i hi
    rw [(h.pending hi).2] at hc
    cases hc

theorem setConn (fd : ℕ) (conn : ConnectionStatus) : (s.setFd fd { s.fds fd with conn := conn }).Inv :=
  h.touched (Touched.setFd s ⟨rfl, rfl, rfl, rfl⟩)

theorem setAuth {fd c : ℕ} (hc : (s.fds fd).connection = some c) (auth : AuthenticationStatus) :
    (s.setAuth fd auth (some c)).Inv :=
  h.setPeer hc hc rfl rfl ((h.record fd).own c hc).1.2 ((s.peers c).reached_le_setAuth auth)

theorem initFdData {fd : ℕ} {sid : UInt32} (hconn : (s.fds fd).connection = none)
    (hsid : (s.fds fd).sid = sid) (hclients : ∀ i, (s.clients i).pending ≠ some fd) : (s.initFdData fd sid).Inv := by
  refine h.change (Nat.le_succ _) ?_ ?_ ⟨?_, nofun, nofun⟩ ?_ hclients
  · intro c hc _
    exact update_of_ne hc.ne ..
  · intro c hc
    rw [update_of_ne hc.ne]
  · intro c hc
    obtain rfl : s.opened = c := Option.some.inj hc
    rw [update_self]
    exact ⟨⟨(h.record fd).unowned hconn, hsid⟩, Nat.lt_succ_self _⟩
  · intro c hc fd' _ hother
    obtain rfl : s.opened = c := Option.some.inj hc
    exact (h.fresh hother).false

theorem closeActiveFd {fd : ℕ} (hconn : (s.fds fd).connection ≠ none) : (s.closeActiveFd fd).Inv :=
  h.change le_rfl (fun _ _ _ => rfl) (fun _ _ => le_rfl) ⟨nofun, fun _ => rfl, fun _ => ⟨rfl, rfl⟩⟩ nofun
    fun _ hi => hconn (h.pending hi).2

theorem nodeConnect {fd : ℕ} (hclosed : (s.fds fd).isOpen = false) (nod : UInt32) :
    (s.setFd fd { s.fds fd with conn := .connecting, auth := .none, sid := nod, isOpen := true }).Inv := by
  have hconn : ∀ c, (s.fds fd).connection ≠ some c := by
    rw [((h.record fd).closed hclosed).1]
    exact nofun
  refine h.change le_rfl (fun _ _ _ => rfl) (fun _ _ => le_rfl) ⟨fun c hc => absurd hc (hconn c), fun _ => rfl, nofun⟩
    (fun c hc => absurd hc (hconn c)) ?_
  · intro i hi
    exact Bool.false_ne_true (hclosed.symm.trans (h.pending hi).1)

end

variable [DecidableEq ι]

section
variable (h : s.Inv)

include h

theorem setWorker {i : ι} {w : Worker} (hw : s.WorkerOk w) : (s.setWorker i w).Inv where
  record := h.record
  distinct := h.distinct
  workers j := by
    by_cases hj : j = i
    · subst hj
      simp only [State.setWorker, update_self]
      exact hw
    · simp only [State.setWorker, update_of_ne hj]
      exact h.workers j
  clients := h.clients
  apart := h.apart

theorem setClient {i : ι} {c : Client} (hc : s.ClientOk c)
    (hpending : ∀ fd, c.pending = some fd → ∀ j, (s.clients j).pending ≠ some fd) : (s.setClient i c).Inv where
  record := h.record
  distinct := h.distinct
  workers := h.workers
  clients j := by
    by_cases hj : j = i
    · subst hj
      simp only [State.setClient, update_self]
      exact hc
    · simp only [State.setClient, update_of_ne hj]
      exact h.clients j
  apart j k fd hj hk := by
    simp only [State.setClient] at hj hk
    by_cases hji : j = i
    · subst hji
      rw [update_self] at hj
      by_cases hkj : k = j
      · exact hkj.symm
      · rw [update_of_ne hkj] at hk
        exact absurd hk (hpending fd hj k)
    · rw [update_of_ne hji] at hj
      by_cases hki : k = i
      · subst hki
        rw [update_self] at hk
        exact absurd hj (hpending fd hk j)
      · rw [update_of_ne hki] at hk
        exact h.apart j k fd hj hk

theorem setIdle {i : ι} {c : Client} (hc : s.ClientOk c) (hpending : c.pending = none) :
    (s.setClient i c).Inv :=
  h.setClient hc fun fd hfd => by
    rw [hpending] at hfd
    cases hfd

/-! ## Steps -/

theorem setAuthAsk {i : ι} {fd : ℕ} (hconn : (s.fds fd).connection ≠ none) (auth : AuthenticationStatus)
    (question : Question) (sid : UInt32) (wanted : AuthenticationStatus) (generation : UInt32) :
    ((s.setAuth fd auth (s.fds fd).connection).ask i question fd sid wanted generation).Inv := by
  obtain ⟨c, hc⟩ := Option.ne_none_iff_exists'.mp hconn
  rw [hc]
  have hset := h.setAuth hc auth
  exact hset.setIdle (fun _ => hset.fresh) rfl

theorem nodeAuthenticate {i : ι} {fd : ℕ} {sid : UInt32} {auth : AuthenticationStatus}
    (hconn : (s.fds fd).connection ≠ none) (hs : s.nodeAuthenticate i fd sid auth = some s') : s'.Inv := by
  unfold State.nodeAuthenticate at hs
  dsimp only at hs
  have hidle : (s.setClient i .idle).Inv := h.setIdle trivial rfl
  cases hc : (s.fds fd).conn with
  | none =>
    rw [hc] at hs
    cases hs
  | connecting | passive =>
    rw [hc] at hs
    cases hs
    exact h
  | established =>
    rw [hc] at hs
    cases hs
    exact hidle
  | active =>
    rw [hc] at hs
    dsimp only at hs
    split_ifs at hs
    · cases hs
      exact hidle
    · cases ha : (s.fds fd).auth with
      | none | stage1 =>
        rw [ha] at hs
        cases hs
        exact h.setAuthAsk hconn _ _ _ _ _
      | q1 | q3 =>
        rw [ha] at hs
        cases hs
        exact h
      | finished =>
        rw [ha] at hs
        cases hs
        exact hidle

theorem authenticated {i : ι} {a : Asking} (hi : s.clients i = .answered a)
    (hsafe : a.question ≠ .ping → (s.fds a.fd).connection = a.connection) (more : Bool) :
    (s.authenticated i a more).Inv := by
  have hok := h.clients i
  rw [hi] at hok
  obtain ⟨c, hc⟩ := Option.ne_none_iff_exists'.mp hok.1
  rw [hc] at hsafe
  unfold State.authenticated
  cases hq : a.question with
  | ping => exact h.setIdle (fun _ => h.fresh) rfl
  | stage1 =>
    have hset := h.setAuth (hsafe (by rw [hq]; decide)) .stage1
    rw [hc]
    exact hset.setIdle trivial rfl
  | stage2 =>
    have hset := h.setAuth (hsafe (by rw [hq]; decide)) .finished
    rw [hc]
    exact (hset.setConn a.fd .established).setIdle trivial rfl

theorem proceed {i : ι} {a : Asking} (hi : s.clients i = .answered a)
    (hsafe : a.question ≠ .ping → (s.fds a.fd).connection = a.connection) (nod : UInt32) (more : Bool) :
    (s.proceed i a nod more).Inv := by
  unfold State.proceed
  dsimp only
  split
  · refine (h.touched (Touched.nodeHasValidFd s nod)).setIdle ?_ ?_
    · split_ifs <;> trivial
    · split_ifs <;> rfl
  · split_ifs
    · exact h.setIdle trivial rfl
    · exact h.setIdle trivial rfl
    · exact h.setIdle trivial rfl
    · exact h.authenticated hi hsafe more

theorem step {e : Event ι} (hsafe : s.AuthSafe e) (hs : s.step e = some s') : s'.Inv := by
  cases e with
  | accept fd =>
    simp only [State.step] at hs
    split_ifs at hs with hopen
    cases hs
    have hclosed := (h.record fd).closed (Bool.eq_false_iff.mpr hopen)
    have hinit : (s.initFdData fd 0).Inv := h.initFdData hclosed.1 hclosed.2 fun i hi => hopen (h.pending hi).1
    exact hinit.setConn fd .passive
  | connected fd =>
    simp only [State.step] at hs
    split_ifs at hs
    cases hs
    exact h.setConn fd .active
  | close fd =>
    simp only [State.step] at hs
    split_ifs at hs with hconn
    cases hs
    exact h.closeActiveFd hconn
  | dispatch fd i dc =>
    simp only [State.step] at hs
    split at hs
    · rename_i c dir dc' _ hc _
      split_ifs at hs
      cases hs
      exact h.setWorker (h.fresh hc)
    · cases hs
  | check i =>
    cases hw : s.workers i with
    | received r =>
      have hok := h.workers i
      simp only [State.step, hw] at hs hok
      have hsame : ∀ c, (s.fds r.fdData).connection = some c → c = r.connection := hsafe r (by rw [hw]; rfl)
      cases hv : networkWorker r.dir r.dc (s.fds r.fdData).auth with
      | run proc =>
        rw [hv] at hs
        cases hs
        refine h.setWorker ⟨hok, ?_⟩
        have hle := networkWorker_auth_le hv
        cases hc : (s.fds r.fdData).connection with
        | none =>
          rw [(h.record _).unowned hc] at hle
          exact hle.trans (Nat.zero_le _)
        | some c =>
          rw [((h.record _).own c hc).1.1, hsame c hc] at hle
          exact hle.trans (s.peers _).auth_le
      | drop | errorReply =>
        rw [hv] at hs
        cases hs
        exact h.setWorker trivial
    | idle | serving | rejecting =>
      simp only [State.step, hw] at hs
      cases hs
  | serve i =>
    simp only [State.step] at hs
    split at hs
    · split_ifs at hs
      cases hs
      exact h.setWorker trivial
    · cases hs
  | authStage1 i nod =>
    simp only [State.step] at hs
    split at hs
    · rename_i r hw
      cases nod with
      | none =>
        cases hs
        have hok := h.workers i
        rw [hw] at hok
        exact h.setWorker hok.1
      | some nod =>
        cases hs
        have hsame : (s.fds r.fdData).connection = some r.connection := hsafe r (by rw [hw]; rfl)
        refine Inv.setWorker (Inv.touched ?_ (Touched.updateNodeFd _ _ _ _ _)) trivial
        exact h.setPeer hsame hsame rfl rfl rfl (Peer.reached_le_setAuth _ _)
    · cases hs
  | authStage2 i found =>
    simp only [State.step] at hs
    split at hs
    · rename_i r hw
      split_ifs at hs with hfound
      · cases hs
        subst hfound
        have hsame : (s.fds r.fdData).connection = some r.connection := hsafe r (by rw [hw]; rfl)
        exact ((h.setAuth hsame .finished).setConn r.fdData .established).setWorker trivial
      · cases hs
        have hok := h.workers i
        rw [hw] at hok
        exact h.setWorker hok.1
    · cases hs
  | reject i =>
    simp only [State.step] at hs
    split at hs
    · cases hs
      exact (h.touched (Touched.reject s _)).setWorker trivial
    · cases hs
  | nodeConnect i fd nod auth =>
    simp only [State.step] at hs
    split at hs
    · split_ifs at hs with hguard
      cases hs
      rw [not_or, Bool.not_eq_true] at hguard
      have hvalid := h.touched (Touched.nodeHasValidFd s nod)
      have hclosed : ((s.nodeHasValidFd nod).fds fd).isOpen = false :=
        ((Touched.nodeHasValidFd s nod).fds fd).isOpen.trans hguard.1
      refine (hvalid.nodeConnect hclosed nod).setClient ?_ ?_
      · simp only [ClientOk, setFd_self]
        exact ⟨trivial, ((hvalid.record fd).closed hclosed).1, trivial⟩
      · intro fd' hfd j hj
        obtain rfl := Option.some.inj hfd
        exact Bool.false_ne_true (hclosed.symm.trans (hvalid.pending hj).1)
    · cases hs
  | addFdToActive i =>
    simp only [State.step] at hs
    split at hs
    · rename_i fd nod auth hc
      cases hs
      have hok := h.clients i
      rw [hc] at hok
      -- the thread leaves the descriptor before it is initialized
      have hidle : (s.setClient i (.again nod auth)).Inv := h.setIdle trivial rfl
      have hinit : ((s.setClient i (.again nod auth)).initFdData fd nod).Inv := by
        refine hidle.initFdData hok.2.1 hok.2.2 fun j hj => ?_
        simp only [State.setClient] at hj
        by_cases hji : j = i
        · subst hji
          rw [update_self] at hj
          cases hj
        · rw [update_of_ne hji] at hj
          exact hji (h.apart j i fd hj (by rw [hc]; rfl))
      have ht := Touched.updateNodeFd (s.initFdData fd nod) nod (some fd) ((s.initFdData fd nod).fds fd).generation true
      refine hinit.touched ⟨ht.fds, ht.workers, ?_, ht.opened, ht.peers⟩
      simp only [State.setClient, ht.clients]
      rfl
    · cases hs
  | authenticate i nod auth =>
    simp only [State.step] at hs
    split at hs
    · split_ifs at hs
      cases hs
      exact h.setIdle trivial rfl
    · cases hs
  | again i found =>
    simp only [State.step] at hs
    split at hs
    · rename_i sid auth hc
      cases found with
      | true =>
        simp only [if_true] at hs
        split at hs
        · rename_i fd hfd
          exact h.nodeAuthenticate (hsafe sid (by rw [hc]; rfl) fd hfd) hs
        · cases hs
          exact (h.touched (Touched.nodeHasValidFd s sid)).setIdle trivial rfl
      | false =>
        cases hs
        exact h.setIdle trivial rfl
    · cases hs
  | reply i =>
    simp only [State.step] at hs
    split at hs
    · rename_i a hc
      split_ifs at hs with hreply
      cases hs
      have hok := h.clients i
      rw [hc] at hok
      exact h.setIdle ⟨hreply.1, hok⟩ rfl
    · cases hs
  | noReply i =>
    simp only [State.step] at hs
    split at hs
    · cases hs
      exact h.setIdle trivial rfl
    · cases hs
  | proceed i nod more =>
    simp only [State.step] at hs
    split at hs
    · rename_i a hc
      cases nod with
      | none =>
        cases hs
        exact h.setIdle trivial rfl
      | some nod =>
        dsimp only at hs
        split_ifs at hs
        cases hs
        exact h.proceed hc (hsafe a (by rw [hc]; rfl)) nod more
    · cases hs
  | fail i =>
    simp only [State.step] at hs
    split at hs
    · rename_i fd generation nod hc
      cases hs
      refine Inv.setIdle ?_ trivial rfl
      have hclose : Inv (if (s.fds fd).generation = generation then s.closeNetworkFd (some fd) else s) := by
        split_ifs
        · exact h.touched (Touched.closeNetworkFd s _)
        · exact h
      cases nod with
      | none => exact hclose
      | some nod => exact hclose.touched (Touched.setNode _ _ _)
    · cases hs

end

end Inv

end State

/-- As long as no record is used again while a request or a reply of the connection before is handled, the records have
the levels and nodes of their connections, and handlers run only for connections that have reached their level. -/
theorem auth_separate {ι : Type} [DecidableEq ι] (thisNode : UInt32) (es : List (Event ι))
    (hsafe : ∀ x ∈ Runs.taken State.step (.start thisNode) es, x.1.AuthSafe x.2) :
    ∀ s ∈ Runs.visited State.step (.start thisNode) es, s.Separate := fun s hs =>
  (Runs.visited_inv (fun _ _ _ h hc hstep => State.Inv.step h hc hstep) es _ (State.start_inv thisNode)
    hsafe s hs).separate

def packet (bytes : List UInt8) : DC := ⟨fun i => bytes.getD i 0, 4, bytes.length, 4⟩

/-- The first stage for the node `b`. -/
def stage1Packet : DC := packet [22, 0, 0, 0, 0, 0, 0, 0, 1, 0, 0, 0, 21, 0, 0, 0, 1, 0, 0, 0, 98, 0]

def stage2Packet : DC := packet [17, 0, 0, 0, 0, 0, 0, 0, 2, 0, 0, 0, 22, 0, 0, 0, 2]

def getattrPacket : DC :=
  packet ([36, 0, 0, 0, 0, 0, 0, 0, 3, 0, 0, 0, 4, 0, 0, 0] ++ List.replicate 20 1)

/-- A node connects, authenticates and sends a request, while this node connects to another one. -/
def authenticatedRun : List (Event (Fin 2)) :=
  [.accept 5, .nodeConnect 1 6 9 .finished, .dispatch 5 0 stage1Packet, .check 0, .authStage1 0 (some 7),
    .addFdToActive 1, .connected 6, .dispatch 5 0 stage2Packet, .check 0, .again 1 true, .authStage2 0 true,
    .reply 1, .proceed 1 (some 9) false, .again 1 true, .reply 1, .proceed 1 (some 9) false, .reply 1,
    .proceed 1 (some 9) false, .dispatch 5 0 getattrPacket, .check 0]

theorem auth_separate_authenticated :
    ∃ s, Runs.run State.step (.start 1) authenticatedRun = some s ∧ (s.fds 5).auth = .finished ∧
      (s.fds 6).auth = .finished ∧ s.Separate := by
  obtain ⟨s, hrun, h5, h6⟩ : ∃ s, Runs.run State.step (.start 1) authenticatedRun = some s ∧
      (s.fds 5).auth = .finished ∧ (s.fds 6).auth = .finished := ⟨_, rfl, by decide +kernel, by decide +kernel⟩
  refine ⟨s, hrun, h5, h6, auth_separate 1 authenticatedRun ?_ s (Runs.mem_visited_of_run _ hrun)⟩
  decide +kernel

/-- A connection is closed while its first stage is handled; the level and the node go to the next connection with the
descriptor. -/
def staleStage1 : List (Event (Fin 2)) :=
  [.accept 5, .dispatch 5 0 stage1Packet, .check 0, .close 5, .accept 5, .authStage1 0 (some 7)]

/-- A connection is closed before the level of its request is compared, and the next one with the descriptor
authenticates. -/
def staleRequest : List (Event (Fin 2)) :=
  [.accept 5, .dispatch 5 0 getattrPacket, .close 5, .accept 5, .dispatch 5 1 stage1Packet, .check 1,
    .authStage1 1 (some 7), .dispatch 5 1 stage2Packet, .check 1, .authStage2 1 true, .check 0]

theorem auth_crosses :
    (¬ ∀ es : List (Event (Fin 2)), ∀ s ∈ Runs.visited State.step (.start 1) es, ∀ fd c,
      (s.fds fd).connection = some c → (s.fds fd).auth = (s.peers c).auth ∧ (s.fds fd).sid = (s.peers c).sid) ∧
    ¬ ∀ es : List (Event (Fin 2)), ∀ s ∈ Runs.visited State.step (.start 1) es, ∀ i r proc,
      s.workers i = .serving r proc → proc.auth.code ≤ (s.peers r.connection).reached.code := by
  refine ⟨fun h => ?_, fun h => ?_⟩
  · obtain ⟨s, hrun, hconn, hauth, hpeer⟩ : ∃ s, Runs.run State.step (.start 1) staleStage1 = some s ∧
        (s.fds 5).connection = some 1 ∧ (s.fds 5).auth = .stage1 ∧ (s.peers 1).auth = .none :=
      ⟨_, rfl, by decide +kernel, by decide +kernel, by decide +kernel⟩
    have hown := (h _ s (Runs.mem_visited_of_run _ hrun) 5 1 hconn).1
    rw [hauth, hpeer] at hown
    cases hown
  · obtain ⟨s, r, hrun, hw, hpeer⟩ : ∃ s r, Runs.run State.step (.start 1) staleRequest = some s ∧
        s.workers 0 = .serving r .getattr ∧ (s.peers r.connection).reached = .none :=
      ⟨_, _, rfl, rfl, by decide +kernel⟩
    have hle := h _ s (Runs.mem_visited_of_run _ hrun) 0 r .getattr hw
    rw [hpeer] at hle
    exact absurd hle (by decide)

end ZFS.Network
