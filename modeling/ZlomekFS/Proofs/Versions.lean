import ZlomekFS.Proofs.ReintegrateBlocks
import ZlomekFS.Spec.Reintegrate

/-! The versions during `reintegrate_file_blocks`. Every acknowledged request raises the version of the
master by one, however many local operations raised the local version, and the increment sent at the
end is the difference of two `uint64_t`. -/

namespace ZFS
open Spans IntervalTree

/-! ## How many requests the intervals take -/

/-- Requests of `g` bytes for an interval, which is sent in pieces of `ZFS_MAXDATA`. -/
def requestsFor (g length : ℕ) : ℕ :=
  length / ZFS_MAXDATA * ((ZFS_MAXDATA + g - 1) / g) + (length % ZFS_MAXDATA + g - 1) / g

def requests (g : ℕ) (l : List Span) : ℕ := (l.map fun n => requestsFor g (n.stop - n.start)).sum

@[simp] theorem requests_nil (g : ℕ) : requests g [] = 0 := rfl

@[simp] theorem requests_cons (g : ℕ) (n : Span) (l : List Span) :
    requests g (n :: l) = requestsFor g (n.stop - n.start) + requests g l := rfl

theorem requestsFor_piece {g : ℕ} (hg : 0 < g) (length : ℕ) :
    requestsFor g length =
      (min length ZFS_MAXDATA + g - 1) / g + requestsFor g (length - min length ZFS_MAXDATA) := by
  have hnone : (g - 1) / g = 0 := Nat.div_eq_of_lt (by omega)
  rcases lt_or_ge length ZFS_MAXDATA with hlt | hge
  · simp [requestsFor, Nat.div_eq_of_lt hlt, Nat.mod_eq_of_lt hlt, min_eq_left hlt.le, hnone]
  · obtain ⟨r, rfl⟩ := Nat.exists_eq_add_of_le hge
    rw [min_eq_right (Nat.le_add_right _ _), Nat.add_sub_cancel_left]
    unfold requestsFor
    rw [Nat.add_div_left r (by decide), Nat.add_mod_left, Nat.add_mul, Nat.one_mul]
    omega

section Acked
variable {ans : ℕ → WriteAns} {offset g : ℕ} {buf : List UInt8} {m : Master} {s : Sent}

theorem SentOk.acked_le_requests (h : SentOk ans offset buf m s) (hg : 0 < g)
    (hans : ∀ k n, ans k = .ok n → g ≤ n + 1) : s.acked ≤ (buf.length + g - 1) / g := by
  rw [Nat.le_div_iff_mul_le hg, Nat.mul_comm]
  have hfew := (h.few g hg hans).1
  have hle := h.count_le
  omega

theorem SentOk.acked_lt_requests (h : SentOk ans offset buf m s) (hg : 0 < g)
    (hans : ∀ k n, ans k = .ok n → g ≤ n + 1) (hlt : s.count < buf.length) :
    s.acked + 1 ≤ (buf.length + g - 1) / g := by
  rw [Nat.le_div_iff_mul_le hg, Nat.add_mul, Nat.one_mul, Nat.mul_comm]
  have hfew := (h.few g hg hans).2 hlt
  omega

theorem SentOk.requests_le_acked (h : SentOk ans offset buf m s) (hg : 0 < g)
    (hans : ∀ k n, ans k = .ok n → n + 1 ≤ g) (hcount : s.count = buf.length) :
    (buf.length + g - 1) / g ≤ s.acked := by
  rw [← Nat.lt_succ_iff, Nat.div_lt_iff_lt_mul hg, Nat.succ_mul, Nat.mul_comm]
  have hmany := h.many g hans
  omega

end Acked

/-! ## The first interval -/

theorem reintegrateRange_head {modified : IntervalTree} {offset start count : ℕ}
    (hfrom : ∀ n ∈ modified.nodes, offset ≤ n.start)
    (h : reintegrateRange modified offset = some (start, count)) :
    ∃ node rest, modified.nodes = node :: rest ∧ start = node.start ∧
      count = min (node.stop - node.start) ZFS_MAXDATA := by
  cases hn : modified.nodes with
  | nil =>
    have hnone : modified.lookup offset = none := by
      simp [lookup, nodesFrom, hn, spanAt, before, after]
    rw [reintegrateRange, hnone] at h
    cases h
  | cons node rest =>
    have hle := hfrom node (by rw [hn]; simp)
    rw [reintegrateRange, lookup_head hn hle] at h
    obtain ⟨rfl, rfl⟩ := Prod.mk.inj (Option.some.inj h)
    exact ⟨node, rest, rfl, max_eq_right hle, rfl⟩

theorem nodes_eq_nil_of_range {modified : IntervalTree} {offset : ℕ}
    (hfrom : ∀ n ∈ modified.nodes, offset ≤ n.start) (h : reintegrateRange modified offset = none) :
    modified.nodes = [] := by
  cases hn : modified.nodes with
  | nil => rfl
  | cons node rest =>
    rw [reintegrateRange, lookup_head hn (hfrom node (by rw [hn]; simp))] at h
    cases h

variable {rest : List Span} {fh : InternalFh}

theorem reach_of_cons {t : IntervalTree} {node : Span} (h : t.nodes = node :: rest) :
    t.reach = max node.stop (rest.getLast?.elim 0 Span.stop) := by
  have hsep := t.separated
  rw [h] at hsep
  obtain ⟨-, hgap, hrest⟩ := separated_cons.mp hsep
  rw [reach, treeMax, h, List.getLast?_cons]
  cases hl : rest.getLast? with
  | none => simp
  | some last =>
    have hmem := List.mem_of_getLast? hl
    have := hgap last hmem
    have := hrest.le last hmem
    simp only [Option.elim_some, Option.getD_some]
    omega

/-- A tree without the first bytes of its first interval, sent with `k` bytes from `node.start` on. -/
structure Shortened (node : Span) (k : ℕ) (rest : List Span) (t : IntervalTree) : Prop where
  nodes : t.nodes = if node.start + k < node.stop then ⟨node.start + k, node.stop⟩ :: rest else rest
  reach : ∀ n, max (max n (node.start + k)) t.reach = max n (max node.stop (rest.getLast?.elim 0 Span.stop))

theorem shortened_delete {t : IntervalTree} {node : Span} {k : ℕ} (h : t.nodes = node :: rest)
    (hpos : node.start < node.start + k) (hle : node.start + k ≤ node.stop) :
    Shortened node k rest (t.delete node.start (node.start + k) hpos) := by
  have hnodes := delete_head h hpos hle
  refine ⟨hnodes, fun n => ?_⟩
  by_cases hlt : node.start + k < node.stop
  · rw [if_pos hlt] at hnodes
    rw [reach_of_cons hnodes]
    simp only
    omega
  · rw [if_neg hlt] at hnodes
    rw [reach, treeMax, hnodes]
    omega

theorem Shortened.start_le {node : Span} {k : ℕ} {t t' : IntervalTree}
    (h : Shortened node k rest t') (hn : t.nodes = node :: rest) (hle : node.start + k ≤ node.stop) :
    ∀ n ∈ t'.nodes, node.start + k ≤ n.start := by
  have hsep := t.separated
  rw [hn] at hsep
  obtain ⟨-, hgap, -⟩ := separated_cons.mp hsep
  have hrest : ∀ n ∈ rest, node.start + k ≤ n.start := fun n hmem => by
    have := hgap n hmem
    omega
  rw [h.nodes]
  split_ifs
  · exact List.forall_mem_cons.mpr ⟨le_rfl, hrest⟩
  · exact hrest

theorem Shortened.requests {node : Span} {k g : ℕ} {t : IntervalTree}
    (h : Shortened node k rest t) (hg : 0 < g) (hk : k = min (node.stop - node.start) ZFS_MAXDATA) :
    requests g (node :: rest) = (k + g - 1) / g + requests g t.nodes := by
  have hpiece := requestsFor_piece hg (node.stop - node.start)
  rw [← hk] at hpiece
  rw [h.nodes, requests_cons, hpiece]
  split_ifs with hmore
  · rw [requests_cons, Nat.sub_sub, Nat.add_assoc]
  · have hzero : requestsFor g 0 = 0 := by
      simp [requestsFor, Nat.div_eq_of_lt (show g - 1 < g by omega)]
    rw [show node.stop - node.start - k = 0 by omega, hzero, Nat.add_zero]

/-! ## The loop over intervals that can all be sent -/

/-- Every modified interval has a byte and lies in the local file. -/
def InternalFh.Sendable (fh : InternalFh) : Prop :=
  ∀ n ∈ fh.modified.nodes, n.start < n.stop ∧ n.stop ≤ fh.data.size

instance (fh : InternalFh) : Decidable fh.Sendable := inferInstanceAs (Decidable (∀ n ∈ _, _))

/-- An acknowledged request stores `g` bytes or all that is left of its piece. -/
def ReintEnv.StoresAtLeast (env : ReintEnv) (g : ℕ) : Prop :=
  ∀ offset k n, (env.piece offset).write k = .ok n → g ≤ n + 1

def ReintEnv.StoresAtMost (env : ReintEnv) (g : ℕ) : Prop :=
  ∀ offset k n, (env.piece offset).write k = .ok n → n + 1 ≤ g

/-- The loop that began in `s` goes on in `t`. -/
structure Sending (env : ReintEnv) (g : ℕ) (s t : Reint) : Prop where
  file : t.fh.data = s.fh.data
  size : t.fh.attr.size = s.fh.attr.size
  sendable : t.fh.Sendable
  counted : t.Counted s.master.version
  few : t.versionIncrease + requests g t.fh.modified.nodes ≤ requests g s.fh.modified.nodes
  many : env.StoresAtMost g →
    requests g s.fh.modified.nodes ≤ t.versionIncrease + requests g t.fh.modified.nodes
  reach : max t.master.data.size t.fh.modified.reach = max s.master.data.size s.fh.modified.reach

/-- The loop that began in `s` has ended in `t`. -/
structure SendingDone (env : ReintEnv) (g : ℕ) (s t : Reint) : Prop where
  few : t.versionIncrease ≤ requests g s.fh.modified.nodes
  counted : t.Counted s.master.version ∨ t.fh.modified.nodes ≠ [] ∧
    t.versionIncrease + 1 ≤ requests g s.fh.modified.nodes ∧
    t.master.version = u64 (s.master.version + t.versionIncrease + 1)
  reach : t.fh.modified.nodes = [] → t.master.data.size = max s.master.data.size s.fh.modified.reach
  all : env.Clean → env.StoresAtMost g →
    t.fh.modified.nodes = [] ∧ t.versionIncrease = requests g s.fh.modified.nodes

theorem length_piece {node : Span} (h : fh.Sendable)
    (hn : fh.modified.nodes = node :: rest) :
    0 < (fh.data.read node.start (min (node.stop - node.start) ZFS_MAXDATA)).length ∧
      (fh.data.read node.start (min (node.stop - node.start) ZFS_MAXDATA)).length =
        min (node.stop - node.start) ZFS_MAXDATA := by
  obtain ⟨hlt, hle⟩ := h node (by rw [hn]; simp)
  rw [FlatFile.length_read, ZFS_MAXDATA]
  omega

theorem requests_first_le {g : ℕ} (hg : 0 < g) (node : Span) (rest : List Span) :
    (min (node.stop - node.start) ZFS_MAXDATA + g - 1) / g ≤ requests g (node :: rest) := by
  rw [requests_cons, requestsFor_piece hg, Nat.add_assoc]
  exact Nat.le_add_right _ _

section Sending
variable {env : ReintEnv} {g offset start count : ℕ} {s t u : Reint}

theorem Sending.done (h : Sending env g s t) (hfrom : ∀ n ∈ t.fh.modified.nodes, offset ≤ n.start)
    (hcover : s.fh.data.size ≤ s.fh.attr.size)
    (hstop : t.fh.attr.size ≤ offset ∨ reintegrateRange t.fh.modified offset = none) : SendingDone env g s t := by
  have hnil : t.fh.modified.nodes = [] := by
    rcases hstop with hend | hnone
    · -- an interval that can be sent ends before the end of the file
      apply List.eq_nil_iff_forall_not_mem.mpr
      intro n hmem
      obtain ⟨hlt, hle⟩ := h.sendable n hmem
      have := hfrom n hmem
      rw [h.size] at hend
      rw [h.file] at hle
      omega
    · exact nodes_eq_nil_of_range hfrom hnone
  have hfew := h.few
  have hreach := h.reach
  have hzero : t.fh.modified.reach = 0 := by simp [IntervalTree.reach, IntervalTree.treeMax, hnil]
  rw [hzero, Nat.max_zero] at hreach
  rw [hnil, requests_nil] at hfew
  refine ⟨hfew, Or.inl h.counted, fun _ => hreach, fun _ hmost => ⟨hnil, le_antisymm hfew ?_⟩⟩
  have hmany := h.many hmost
  rwa [hnil, requests_nil] at hmany

section Pieces
variable (h : Sending env g s t) (hg : 0 < g) (hleast : env.StoresAtLeast g)
  (hfrom : ∀ n ∈ t.fh.modified.nodes, offset ≤ n.start)
  (hrange : reintegrateRange t.fh.modified offset = some (start, count))
include h hg hleast hfrom hrange

theorem Sending.stopped (hpiece : Piece env t start count (u, none)) : SendingDone env g s u := by
  obtain ⟨node, rest, hn, rfl, rfl⟩ := reintegrateRange_head hfrom hrange
  obtain ⟨hpos, hlen⟩ := length_piece h.sendable hn
  have hfew := h.few
  have hfirst := requests_first_le hg node rest
  rw [hn] at hfew
  have hne : t.fh.modified.nodes ≠ [] := by rw [hn]; exact List.cons_ne_nil _ _
  cases hpiece with
  | idle r hidle =>
    refine ⟨by simp only; omega, Or.inl h.counted, fun hnil => absurd hnil hne, fun hclean _ => ?_⟩
    have hnil := (hidle hclean).2
    rw [hnil] at hpos
    exact absurd hpos (lt_irrefl 0)
  | broken sent master r hsent hr hmaster hbad =>
    have hacked := hsent.acked_le_requests hg (hleast _)
    rw [hlen] at hacked
    refine ⟨by simp only; omega, ?_, fun hnil => absurd hnil hne, fun hclean => absurd hclean hbad⟩
    rcases hmaster with rfl | ⟨hlt, off, bytes, rfl⟩
    · exact Or.inl (hsent.counted h.counted)
    · have hlost := hsent.acked_lt_requests hg (hleast _) hlt
      rw [hlen] at hlost
      refine Or.inr ⟨hne, by simp only; omega, ?_⟩
      simp only [Master.write]
      rw [hsent.counted h.counted, u64_add_u64]

theorem Sending.next {next : ℕ} (hpiece : Piece env t start count (u, some next)) :
    Sending env g s u ∧ ∀ n ∈ u.fh.modified.nodes, next ≤ n.start := by
  obtain ⟨node, rest, hn, rfl, rfl⟩ := reintegrateRange_head hfrom hrange
  obtain ⟨hpos, hlen⟩ := length_piece h.sendable hn
  obtain ⟨hlt, hle⟩ := h.sendable node (by rw [hn]; simp)
  cases hpiece with
  | sent sent hsent hcount hstart =>
    have hk : sent.count = min (node.stop - node.start) ZFS_MAXDATA := hcount.trans hlen
    have hshort := shortened_delete hn hstart (by omega)
    have hreq := hshort.requests hg hk
    have hfew := h.few
    have hreach := h.reach
    rw [hn] at hfew
    rw [reach_of_cons hn] at hreach
    have hbytes : sent.master.data.size = max t.master.data.size (node.start + sent.count) := by
      have htake : (List.take sent.count (t.fh.data.read node.start
          (min (node.stop - node.start) ZFS_MAXDATA))).length = sent.count :=
        List.length_take_of_le hsent.count_le
      rw [hsent.data, FlatFile.size_write _ _ (List.ne_nil_of_length_pos (by omega)), htake]
    refine ⟨⟨h.file, h.size, ?_, ?_, ?_, ?_, ?_⟩, hshort.start_le hn (by omega)⟩
    · intro n hmem
      simp only [hshort.nodes] at hmem
      have hrest : ∀ n ∈ rest, n.start < n.stop ∧ n.stop ≤ t.fh.data.size := fun n hmem =>
        h.sendable n (by rw [hn]; exact List.mem_cons_of_mem _ hmem)
      split_ifs at hmem with hmore
      · rcases List.mem_cons.mp hmem with rfl | hmem
        · exact ⟨hmore, hle⟩
        · exact hrest n hmem
      · exact hrest n hmem
    · exact hsent.counted h.counted
    · have hacked := hsent.acked_le_requests hg (hleast _)
      rw [hlen, ← hk] at hacked
      simp only
      omega
    · intro hmost
      have hmany := h.many hmost
      have hacked := hsent.requests_le_acked hg (hmost _) hcount
      rw [hn] at hmany
      rw [hlen, ← hk] at hacked
      simp only
      omega
    · simp only [hbytes]
      rw [hshort.reach, hreach]

end Pieces

end Sending

def afterLoop (env : ReintEnv) (fh : InternalFh) (master : Master) : Reint :=
  reintegrateLoop env (fh.attr.size + 1) 0 (.start fh master)

theorem afterLoop_counted (env : ReintEnv) (fh : InternalFh) {master : Master} (hv : master.version < 2 ^ 64) :
    (afterLoop env fh master).versionIncrease ≤ fh.data.size ∧
      ((afterLoop env fh master).master.version =
          u64 (master.version + (afterLoop env fh master).versionIncrease) ∨
        (afterLoop env fh master).master.version =
          u64 (master.version + (afterLoop env fh master).versionIncrease + 1)) := by
  obtain ⟨hle, h⟩ := reintegrateLoop_counted env (Nat.lt_succ_self (Reint.start fh master).fh.attr.size) rfl rfl hv
  exact ⟨hle, h.imp_right fun h => h.2.2⟩

theorem afterLoop_done {env : ReintEnv} {g : ℕ} (hg : 0 < g) (hleast : env.StoresAtLeast g)
    {master : Master} (hsend : fh.Sendable) (hcover : fh.data.size ≤ fh.attr.size)
    (hv : master.version < 2 ^ 64) : SendingDone env g (.start fh master) (afterLoop env fh master) := by
  refine reintegrateLoop_rule
    (fun offset t => Sending env g (.start fh master) t ∧ ∀ n ∈ t.fh.modified.nodes, offset ≤ n.start)
    (SendingDone env g (.start fh master)) ?_ ?_ ?_ _ 0 (.start fh master) ?_ ?_
  · rintro offset t ⟨h, hfrom⟩ hstop
    exact h.done hfrom hcover hstop
  · rintro offset t start count u ⟨h, hfrom⟩ hrange hpiece
    exact h.stopped hg hleast hfrom hrange hpiece
  · rintro offset t start count u next ⟨h, hfrom⟩ hrange hpiece
    exact h.next hg hleast hfrom hrange hpiece
  · refine ⟨⟨rfl, rfl, hsend, (u64_of_lt hv).symm, (Nat.zero_add _).le, fun _ => (Nat.zero_add _).ge, rfl⟩, ?_⟩
    exact fun n _ => Nat.zero_le _
  · show fh.attr.size < 0 + (fh.attr.size + 1)
    omega

/-! ## An interval that cannot be sent -/

def Stuck (size : ℕ) (n : Span) : Prop := n.stop ≤ n.start ∨ size < n.stop

theorem exists_stuck (h : ¬ fh.Sendable) : ∃ n ∈ fh.modified.nodes, Stuck fh.data.size n := by
  rw [InternalFh.Sendable] at h
  push Not at h
  obtain ⟨n, hmem, hn⟩ := h
  refine ⟨n, hmem, ?_⟩
  unfold Stuck
  omega

/-- The tree keeps an interval that cannot be sent, so it is not empty at the end. -/
theorem afterLoop_stuck (env : ReintEnv) (master : Master) (h : ¬ fh.Sendable) :
    (afterLoop env fh master).fh.modified.nodes ≠ [] := by
  have hne : ∀ t : Reint, (∃ n ∈ t.fh.modified.nodes, Stuck fh.data.size n) → t.fh.modified.nodes ≠ [] := by
    rintro t ⟨n, hmem, -⟩
    exact List.ne_nil_of_mem hmem
  refine reintegrateLoop_rule
    (fun offset t => t.fh.data = fh.data ∧ (∀ n ∈ t.fh.modified.nodes, offset ≤ n.start) ∧
      ∃ n ∈ t.fh.modified.nodes, Stuck fh.data.size n)
    (fun t => t.fh.modified.nodes ≠ []) ?_ ?_ ?_ _ 0 (.start fh master) ?_ ?_
  · rintro offset t ⟨-, -, hstuck⟩ -
    exact hne t hstuck
  · rintro offset t start count u ⟨-, -, hstuck⟩ - hpiece
    cases hpiece <;> exact hne t hstuck
  · rintro offset t start count u next ⟨hfile, hfrom, n, hmem, hstuck⟩ hrange hpiece
    obtain ⟨node, rest, hn, rfl, rfl⟩ := reintegrateRange_head hfrom hrange
    cases hpiece with
    | sent sent hsent hcount hpos =>
      rw [FlatFile.length_read, hfile] at hcount
      have hshort := shortened_delete hn hpos (by omega)
      refine ⟨hfile, hshort.start_le hn (by omega), ?_⟩
      simp only [hshort.nodes]
      rw [hn] at hmem
      rcases List.mem_cons.mp hmem with rfl | hmem
      · -- the piece ends at the end of the file, before the end of the interval
        have hend : fh.data.size < n.stop := by
          unfold Stuck at hstuck
          omega
        rw [if_pos (by omega)]
        exact ⟨_, List.mem_cons_self, Or.inr hend⟩
      · refine ⟨n, ?_, hstuck⟩
        split_ifs
        · exact List.mem_cons_of_mem _ hmem
        · exact hmem
  · exact ⟨rfl, fun n _ => Nat.zero_le _, exists_stuck h⟩
  · show fh.attr.size < 0 + (fh.attr.size + 1)
    omega

/-! ## The versions of one call -/

/-- How many requests change the size once all intervals are sent. -/
def sizeChange (fh : InternalFh) (master : Master) : ℕ :=
  if fh.attr.size = max master.data.size fh.modified.reach then 0 else 1

/-- The versions of one call that gets the privilege. The requests of the loop and the change of the
size raise the version by one each; there are fewer than `2 ^ 64` of them, so that a wrap among them
shows at the end of each part. -/
structure VersionsOk (env : ReintEnv) (fh : InternalFh) (master : Master) : Prop where
  writes : master.version ≤ (afterLoop env fh master).master.version
  size : (afterLoop env fh master).master.version ≤ (reintegrateStages env fh master).master.version
  raise : (reintegrateStages env fh master).master.version ≤
    ((reintegrateStages env fh master).raiseVersion env).master.version
  increment : (reintegrateStages env fh master).raises = true →
    (reintegrateStages env fh master).diff ≤ 2 ^ 64 - 1 - (reintegrateStages env fh master).master.version
  recorded : env.Clean → (reintegrateFileBlocks env fh master).fh.metadata.masterVersion =
    (reintegrateFileBlocks env fh master).master.version

theorem adjustSize_of_eq (env : ReintEnv) {s : Reint} (h : s.fh.attr.size = s.master.data.size) :
    s.adjustSize env = s := by
  simp [Reint.adjustSize, h]

theorem adjustSize_version_le (env : ReintEnv) {s : Reint} (h : s.master.version + 1 < 2 ^ 64) :
    s.master.version ≤ (s.adjustSize env).master.version ∧
      (s.adjustSize env).master.version + s.versionIncrease ≤
        s.master.version + (s.adjustSize env).versionIncrease + 1 := by
  obtain ⟨-, -, -, -, ⟨hver, hinc⟩ | ⟨hver, hinc⟩⟩ := adjustSize_spec env s
  · omega
  · rw [u64_of_lt h] at hver
    omega

theorem raiseVersion_version_le (env : ReintEnv) {s : Reint}
    (h : s.raises = true → s.master.version + s.diff < 2 ^ 64) :
    s.master.version ≤ (s.raiseVersion env).master.version := by
  unfold Reint.raiseVersion
  split_ifs with hraise
  · have hsum := u64_of_lt (h hraise)
    cases env.reintegrateVer with
    | ok => simp [Master.reintegrateVer, hsum]
    | fails performed r => cases performed <;> simp [Master.reintegrateVer, hsum]
  · exact le_rfl

section Call
variable {fh : InternalFh} {master : Master} {g : ℕ}

theorem recorded_of_clean {env : ReintEnv} (hclean : env.Clean)
    (hsync : master.version = fh.metadata.masterVersion) (hv : master.version < 2 ^ 64) :
    (reintegrateFileBlocks env fh master).fh.metadata.masterVersion =
      (reintegrateFileBlocks env fh master).master.version := by
  have hmeta : (reintegrateStages env fh master).fh.metadata = fh.metadata :=
    (reintegrateStages_looped env fh master).metadata
  have hcounted := reintegrateStages_counted hclean fh hv
  rw [reintegrateFileBlocks_privileged hclean.privilege]
  obtain ⟨hsame, hmaster, -⟩ := finish_spec ((reintegrateStages env fh master).raiseVersion env)
  rw [hsame.masterVersion, hmaster]
  refine finish_master hclean (by rw [hmeta]; omega) ?_
  rw [hmeta, ← hsync]
  exact hcounted

/-- Where every interval can be sent, the change of the size is the last request. -/
theorem reintegrateStages_increase_le {env : ReintEnv} (hdone : SendingDone env g (.start fh master)
      (afterLoop env fh master)) (hnil : (afterLoop env fh master).fh.modified.nodes = []) :
    (reintegrateStages env fh master).versionIncrease ≤ requests g fh.modified.nodes + sizeChange fh master := by
  have hfew : (afterLoop env fh master).versionIncrease ≤ requests g fh.modified.nodes := hdone.few
  have hattr : (afterLoop env fh master).fh.attr = fh.attr :=
    (reintegrateLoop_looped env (.start fh master) (Nat.lt_succ_self _)).attr
  have hreach : (afterLoop env fh master).master.data.size = max master.data.size fh.modified.reach :=
    hdone.reach hnil
  by_cases hsize : fh.attr.size = (afterLoop env fh master).master.data.size
  · have hsame := adjustSize_of_eq env ((congrArg Fattr.size hattr).trans hsize)
    rw [reintegrateStages]
    exact (congrArg Reint.versionIncrease hsame).le.trans (hfew.trans (Nat.le_add_right _ _))
  · have hone : sizeChange fh master = 1 := if_neg (hreach ▸ hsize)
    obtain ⟨-, -, hadd, -⟩ := adjustSize_spec env (afterLoop env fh master)
    rw [hone]
    exact hadd.trans (Nat.succ_le_succ hfew)

theorem versionsOk_of_sendable {env : ReintEnv} (hg : 0 < g) (hleast : env.StoresAtLeast g)
    (hsync : master.version = fh.metadata.masterVersion) (hb : fh.metadata.localVersion + 1 < 2 ^ 64)
    (hcover : fh.data.size ≤ fh.attr.size) (hsend : fh.Sendable)
    (hroom : fh.metadata.masterVersion + (requests g fh.modified.nodes + sizeChange fh master) ≤
      fh.metadata.localVersion) :
    VersionsOk env fh master := by
  have hv : master.version < 2 ^ 64 := by omega
  have hdone := afterLoop_done hg hleast hsend hcover hv
  have hfew : (afterLoop env fh master).versionIncrease ≤ requests g fh.modified.nodes := hdone.few
  have hcounted : (afterLoop env fh master).master.version =
        master.version + (afterLoop env fh master).versionIncrease ∨
      (afterLoop env fh master).fh.modified.nodes ≠ [] ∧ (afterLoop env fh master).master.version =
        master.version + (afterLoop env fh master).versionIncrease + 1 ∧
        (afterLoop env fh master).versionIncrease + 1 ≤ requests g fh.modified.nodes := by
    rcases hdone.counted with h | ⟨hne, hlt, h⟩
    · exact Or.inl (h.trans (u64_of_lt (show master.version + _ < _ by omega)))
    · have hlt' : (afterLoop env fh master).versionIncrease + 1 ≤ requests g fh.modified.nodes := hlt
      exact Or.inr ⟨hne, h.trans (u64_of_lt (show master.version + _ + 1 < _ by omega)), hlt'⟩
  obtain ⟨hsize, hlost⟩ := adjustSize_version_le env (s := afterLoop env fh master)
    (by rcases hcounted with h | ⟨-, h, h'⟩ <;> omega)
  have hmeta : (reintegrateStages env fh master).fh.metadata = fh.metadata :=
    (reintegrateStages_looped env fh master).metadata
  have hraise : (reintegrateStages env fh master).raises = true →
      (reintegrateStages env fh master).master.version + (reintegrateStages env fh master).diff < 2 ^ 64 := by
    intro hr
    have hnil : (afterLoop env fh master).fh.modified.nodes = [] := by
      rw [← (adjustSize_spec env (afterLoop env fh master)).1]
      simp only [Reint.raises, Bool.and_eq_true, decide_eq_true_eq] at hr
      exact hr.2
    have hinc := reintegrateStages_increase_le hdone hnil
    have hver := hcounted.resolve_right fun h => h.1 hnil
    have hstages : (afterLoop env fh master).adjustSize env = reintegrateStages env fh master := rfl
    rw [hstages] at hlost
    rw [Reint.diff, hmeta, u64_of_lt (by omega), sub64, u64]
    omega
  refine ⟨?_, hsize, raiseVersion_version_le env hraise, fun hr => ?_, fun h => recorded_of_clean h hsync hv⟩
  · rcases hcounted with h | ⟨-, h, -⟩ <;> omega
  · have := hraise hr
    omega

theorem versionsOk_of_stuck {env : ReintEnv} (hsync : master.version = fh.metadata.masterVersion)
    (hsend : ¬ fh.Sendable) (hroom : master.version + fh.data.size + 2 < 2 ^ 64) : VersionsOk env fh master := by
  have hv : master.version < 2 ^ 64 := by omega
  have hver : master.version ≤ (afterLoop env fh master).master.version ∧
      (afterLoop env fh master).master.version + 1 < 2 ^ 64 := by
    obtain ⟨hle, h | h⟩ := afterLoop_counted env fh hv <;> rw [h, u64_of_lt (by omega)] <;> omega
  have hkeep : (reintegrateStages env fh master).raises = false := by
    have hne := afterLoop_stuck env master hsend
    rw [← (adjustSize_spec env (afterLoop env fh master)).1] at hne
    simp only [Reint.raises, Bool.and_eq_false_iff, decide_eq_false_iff_not]
    exact Or.inr hne
  refine ⟨hver.1, (adjustSize_version_le env hver.2).1, ?_, fun hr => ?_, fun h => recorded_of_clean h hsync hv⟩
  · exact raiseVersion_version_le env fun hr => absurd hr (by simp [hkeep])
  · exact absurd hr (by simp [hkeep])

end Call

/-- Nothing fails and every request stores `g` bytes. -/
def steadyEnv (g : ℕ) : ReintEnv :=
  ⟨false, ZFS_OK, fun _ => ⟨none, false, fun _ => .ok (g - 1)⟩, none, .ok, .ok⟩

theorem steadyEnv_clean (g : ℕ) : (steadyEnv g).Clean :=
  ⟨rfl, fun _ => rfl, fun _ => rfl, fun _ _ => ⟨g - 1, rfl⟩, rfl, rfl, rfl⟩

theorem steadyEnv_stores {g : ℕ} (hg : 0 < g) : (steadyEnv g).StoresAtLeast g ∧ (steadyEnv g).StoresAtMost g := by
  constructor <;>
  · intro offset k n h
    cases h
    omega

theorem adjustSize_steady (g : ℕ) (s : Reint) :
    s.adjustSize (steadyEnv g) = if s.fh.attr.size = s.master.data.size then s else
      { s with master := s.master.setattr { size := some s.fh.attr.size }
               versionIncrease := s.versionIncrease + 1 } := by
  unfold Reint.adjustSize
  by_cases h : s.fh.attr.size = s.master.data.size <;> simp [h, steadyEnv]

theorem reintegrateStages_steady (master : Master) {g : ℕ} (hg : 0 < g)
    (hv : master.version < 2 ^ 64) (hcover : fh.data.size ≤ fh.attr.size) (hsend : fh.Sendable) :
    (reintegrateStages (steadyEnv g) fh master).fh.modified.nodes = [] ∧
      (reintegrateStages (steadyEnv g) fh master).versionIncrease =
        requests g fh.modified.nodes + sizeChange fh master ∧
      (afterLoop (steadyEnv g) fh master).master.version =
        u64 (master.version + requests g fh.modified.nodes) ∧
      (reintegrateStages (steadyEnv g) fh master).master.version =
        u64 (master.version + (requests g fh.modified.nodes + sizeChange fh master)) ∧
      requests g fh.modified.nodes ≤ fh.data.size := by
  have hdone := afterLoop_done hg (steadyEnv_stores hg).1 hsend hcover hv
  obtain ⟨hnil, hinc⟩ := hdone.all (steadyEnv_clean g) (steadyEnv_stores hg).2
  have hreq : (afterLoop (steadyEnv g) fh master).versionIncrease = requests g fh.modified.nodes := hinc
  have hver : (afterLoop (steadyEnv g) fh master).master.version =
      u64 (master.version + requests g fh.modified.nodes) := by
    rw [← hreq]
    exact hdone.counted.resolve_right fun hlost => hlost.1 hnil
  have hattr : (afterLoop (steadyEnv g) fh master).fh.attr.size = fh.attr.size :=
    congrArg Fattr.size (reintegrateLoop_looped (steadyEnv g) (.start fh master) (Nat.lt_succ_self _)).attr
  have hsize : (afterLoop (steadyEnv g) fh master).master.data.size = max master.data.size fh.modified.reach :=
    hdone.reach hnil
  have hstages : reintegrateStages (steadyEnv g) fh master = _ :=
    adjustSize_steady g (afterLoop (steadyEnv g) fh master)
  rw [hstages, hattr, hsize, sizeChange]
  refine ⟨?_, ?_, hver, ?_, hreq ▸ (afterLoop_counted (steadyEnv g) fh hv).1⟩ <;> split_ifs
  · exact hnil
  · exact hnil
  · exact hreq
  · exact congrArg Nat.succ hreq
  · exact hver
  · simp only [Master.setattr, hver, Option.isSome_some, if_true]
    rw [u64_add_u64, Nat.add_assoc]

theorem room_of_versionsOk {master : Master} {g : ℕ} (hg : 0 < g)
    (hsync : master.version = fh.metadata.masterVersion)
    (hle : fh.metadata.masterVersion ≤ fh.metadata.localVersion) (hb : fh.metadata.localVersion + 1 < 2 ^ 64)
    (hcover : fh.data.size ≤ fh.attr.size) (hfile : fh.data.size < 2 ^ 64) (hsend : fh.Sendable)
    (h : VersionsOk (steadyEnv g) fh master) :
    fh.metadata.masterVersion + (requests g fh.modified.nodes + sizeChange fh master) ≤
      fh.metadata.localVersion := by
  obtain ⟨hempty, hsum, hloop, hmaster, hbound⟩ := reintegrateStages_steady master hg (by omega) hcover hsend
  have hmeta : (reintegrateStages (steadyEnv g) fh master).fh.metadata = fh.metadata :=
    (reintegrateStages_looped (steadyEnv g) fh master).metadata
  have hone : sizeChange fh master ≤ 1 := by
    unfold sizeChange
    split_ifs <;> omega
  -- no count wraps as the versions do not decrease
  have hroom : master.version + (requests g fh.modified.nodes + sizeChange fh master) < 2 ^ 64 := by
    have hwrites := h.writes
    have hsize := h.size
    rw [hmaster] at hsize
    rw [hloop] at hsize hwrites
    simp only [u64] at hsize hwrites
    omega
  by_contra hlt
  -- with more requests than local versions the difference wraps
  have hdiff : (reintegrateStages (steadyEnv g) fh master).diff = fh.metadata.localVersion + 2 ^ 64 -
      (master.version + (requests g fh.modified.nodes + sizeChange fh master)) := by
    rw [Reint.diff, hmeta, hsum, ← hsync, u64_of_lt hroom, sub64, u64]
    omega
  have hraises : (reintegrateStages (steadyEnv g) fh master).raises = true := by
    simp only [Reint.raises, hempty, decide_true, Bool.and_true, decide_eq_true_eq]
    omega
  have hinc := h.increment hraises
  rw [hmaster, u64_of_lt hroom, hdiff] at hinc
  omega

/-- While the master acknowledges at least `g` bytes with every request, the versions are right in
every call if and only if there are at least as many local versions since the last reintegration as
requests: the intervals in pieces of `g` bytes and the change of the size. Otherwise the last
increment wraps and takes the master back to the local version. With `g = 1` this is about every
answer of the master, with `g = ZFS_MAXDATA` about one that stores every piece at once. -/
theorem reintegrate_versions_iff (fh : InternalFh) (master : Master) {g : ℕ} (hg : 0 < g)
    (hsync : master.version = fh.metadata.masterVersion)
    (hle : fh.metadata.masterVersion ≤ fh.metadata.localVersion) (hb : fh.metadata.localVersion + 1 < 2 ^ 64)
    (hcover : fh.data.size ≤ fh.attr.size) (hfile : fh.data.size < 2 ^ 64)
    (hroom : ¬ fh.Sendable → master.version + fh.data.size + 2 < 2 ^ 64) :
    (∀ env : ReintEnv, env.privilege = ZFS_OK → env.StoresAtLeast g → VersionsOk env fh master) ↔
      (fh.Sendable → fh.metadata.masterVersion + (requests g fh.modified.nodes + sizeChange fh master) ≤
        fh.metadata.localVersion) := by
  constructor
  · intro h hsend
    apply room_of_versionsOk hg hsync hle hb hcover hfile hsend
    exact h (steadyEnv g) rfl (steadyEnv_stores hg).1
  · intro h env _ hleast
    by_cases hsend : fh.Sendable
    · exact versionsOk_of_sendable hg hleast hsync hb hcover hsend (h hsend)
    · exact versionsOk_of_stuck hsync hsend (hroom hsend)

def rewritten : InternalFh := (InternalFh.synced [1]).zfsWrite 0 [2]

theorem reintegrate_versions_rewritten :
    rewritten.Sendable ∧ ∀ env : ReintEnv, env.privilege = ZFS_OK → VersionsOk env rewritten (.synced [1]) := by
  have h := (reintegrate_versions_iff rewritten (.synced [1]) Nat.one_pos rfl (by decide) (by decide)
    (by decide) (by decide) fun hn => absurd (by decide) hn).mpr fun _ => by decide
  exact ⟨by decide, fun env hp => h env hp fun _ _ n _ => Nat.succ_pos n⟩

def sparse : InternalFh := (InternalFh.synced []).zfsWrite ZFS_MAXDATA [7]

/-- The one local version of the sparse file takes two requests, so the version of the master goes up
to 3 and back to 2. -/
theorem reintegrate_version_wraps :
    ¬ VersionsOk (steadyEnv ZFS_MAXDATA) sparse (.synced []) ∧
      sparse.metadata.localVersion = 2 ∧
      (reintegrateStages (steadyEnv ZFS_MAXDATA) sparse (.synced [])).master.version = 3 ∧
      (reintegrateStages (steadyEnv ZFS_MAXDATA) sparse (.synced [])).diff = 2 ^ 64 - 1 ∧
      (reintegrateFileBlocks (steadyEnv ZFS_MAXDATA) sparse (.synced [])).master.version = 2 := by
  have hstages : (reintegrateStages (steadyEnv ZFS_MAXDATA) sparse (.synced [])).master.version = 3 := by
    decide +kernel
  have hraise : ((reintegrateStages (steadyEnv ZFS_MAXDATA) sparse (.synced [])).raiseVersion
      (steadyEnv ZFS_MAXDATA)).master.version = 2 := by decide +kernel
  refine ⟨fun h => ?_, by decide +kernel, hstages, by decide +kernel, by decide +kernel⟩
  have hle := h.raise
  rw [hstages, hraise] at hle
  exact absurd hle (by decide)

end ZFS
