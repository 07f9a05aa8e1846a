import ZlomekFS.Proofs.FileTrees
import ZlomekFS.Spec.Reintegrate

/-! What `reintegrate_file_blocks` leaves of the local file, the master and the versions. -/

namespace ZFS
open Spans

/-! ## Sending one piece -/

/-- How far `full_remote_write_dentry` got from the master `m` on: the first bytes of the buffer are
stored, and the number of requests that were acknowledged goes with how much they stored. -/
structure SentOk (ans : ℕ → WriteAns) (offset : ℕ) (buf : List UInt8) (m : Master) (s : Sent) : Prop where
  count_le : s.count ≤ buf.length
  acked_le : s.acked ≤ s.count
  acked_pos : 0 < s.count → 0 < s.acked
  data : s.master.data = m.data.write offset (buf.take s.count)
  version : m.version < 2 ^ 64 → s.master.version = u64 (m.version + s.acked)
  attrs : s.master.mode = m.mode ∧ s.master.uid = m.uid ∧ s.master.gid = m.gid
  /-- Requests that store `g` bytes or all that is left. -/
  few : ∀ g, 0 < g → (∀ k n, ans k = .ok n → g ≤ n + 1) →
    g * s.acked < s.count + g ∧ (s.count < buf.length → g * s.acked ≤ s.count)
  /-- Requests that store no more than `g` bytes. -/
  many : ∀ g, (∀ k n, ans k = .ok n → n + 1 ≤ g) → s.count ≤ g * s.acked

theorem sentOk_start (ans : ℕ → WriteAns) (offset : ℕ) (buf : List UInt8) (m : Master) :
    SentOk ans offset buf m ⟨ZFS_OK, 0, 0, m⟩ := by
  refine ⟨Nat.zero_le _, le_rfl, fun h => h, ?_, fun h => (u64_of_lt h).symm, ⟨rfl, rfl, rfl⟩,
    fun g hg _ => ⟨by simpa using hg, fun _ => le_rfl⟩, fun g _ => Nat.zero_le _⟩
  rw [List.take_zero, FlatFile.write_nil]

theorem SentOk.store {ans : ℕ → WriteAns} {offset : ℕ} {buf : List UInt8} {m : Master} {s : Sent}
    (h : SentOk ans offset buf m s) {n : ℕ} (hans : ans s.count = .ok n) (hmore : s.count < buf.length) :
    let written := min (n + 1) (buf.length - s.count)
    SentOk ans offset buf m { s with
      count := s.count + written
      acked := s.acked + 1
      master := s.master.write (offset + s.count) ((buf.drop s.count).take written) } := by
  intro written
  have hw : written = min (n + 1) (buf.length - s.count) := rfl
  have hacked := h.acked_le
  have hlen : (buf.take s.count).length = s.count := List.length_take_of_le h.count_le
  refine ⟨by simp only; omega, by simp only; omega, fun _ => Nat.succ_pos _, ?_, fun hv => ?_, h.attrs,
    fun g hg hge => ?_, fun g hle => ?_⟩
  · simp only [Master.write, h.data]
    have happ := m.data.write_append offset (buf.take s.count) ((buf.drop s.count).take written)
    rw [hlen, ← List.take_add] at happ
    exact happ
  · simp only [Master.write]
    rw [h.version hv, u64_add_u64, Nat.add_assoc]
  · have hold := (h.few g hg hge).2 hmore
    have hn := hge _ _ hans
    simp only [Nat.mul_add, Nat.mul_one]
    exact ⟨by omega, fun _ => by omega⟩
  · have hold := h.many g hle
    have hn := hle _ _ hans
    simp only [Nat.mul_add, Nat.mul_one]
    omega

/-- Whatever is answered, the result is a state of the loop, except for the code and for a last
request whose answer was lost. -/
theorem fullRemoteWriteDentry_spec (ans : ℕ → WriteAns) {offset : ℕ} {buf : List UInt8} {m : Master} :
    ∀ (fuel : ℕ) (s : Sent), SentOk ans offset buf m s → s.code = ZFS_OK → buf.length ≤ s.count + fuel →
      ∃ t, SentOk ans offset buf m t ∧ t.code = ZFS_OK ∧
        (fullRemoteWriteDentry ans offset buf fuel s = t ∧ t.count = buf.length ∨
          (∃ r : Err, fullRemoteWriteDentry ans offset buf fuel s = { t with code := r } ∧
            ∃ n, ans n = .fails r) ∨
          ∃ (n : ℕ) (r : Err), fullRemoteWriteDentry ans offset buf fuel s = { t with
              code := r
              master := t.master.write (offset + t.count) ((buf.drop t.count).take (n + 1)) } ∧
            t.count < buf.length ∧ ∃ k, ans k = .lost n r) := by
  intro fuel
  induction fuel with
  | zero =>
    intro s h hcode hfuel
    exact ⟨s, h, hcode, Or.inl ⟨rfl, le_antisymm h.count_le hfuel⟩⟩
  | succ fuel ih =>
    intro s h hcode hfuel
    unfold fullRemoteWriteDentry
    split_ifs with hmore
    · simp only
      split
      · rename_i n hans
        exact ih _ (h.store hans hmore) hcode (by simp only; omega)
      · rename_i r hans
        exact ⟨s, h, hcode, Or.inr (Or.inl ⟨r, rfl, _, hans⟩)⟩
      · rename_i n r hans
        exact ⟨s, h, hcode, Or.inr (Or.inr ⟨n, r, rfl, hmore, _, hans⟩)⟩
    · exact ⟨s, h, hcode, Or.inl ⟨rfl, by have := h.count_le; omega⟩⟩

/-! ## Rounds of the loop -/

/-- What sending the piece at `offset` does, from the state it starts in to the state it leaves. -/
inductive Piece (env : ReintEnv) (s : Reint) (offset count : ℕ) : Reint × Option ℕ → Prop
  | idle (r : ℤ) (h : env.Clean → r = ZFS_OK ∧ s.fh.data.read offset count = []) :
      Piece env s offset count ({ s with code := r }, none)
  | broken (sent : Sent) (master : Master) (r : ℤ)
      (hsent : SentOk (env.piece offset).write offset (s.fh.data.read offset count) s.master sent)
      (hr : r ≠ ZFS_OK)
      (hmaster : master = sent.master ∨ sent.count < (s.fh.data.read offset count).length ∧
        ∃ off bytes, master = sent.master.write off bytes)
      (h : ¬ env.Clean) :
      Piece env s offset count ({ s with code := r, master := master
                                         versionIncrease := s.versionIncrease + sent.acked }, none)
  | sent (sent : Sent)
      (hsent : SentOk (env.piece offset).write offset (s.fh.data.read offset count) s.master sent)
      (hcount : sent.count = (s.fh.data.read offset count).length) (hpos : offset < offset + sent.count) :
      Piece env s offset count ({ s with
        code := ZFS_OK
        master := sent.master
        versionIncrease := s.versionIncrease + sent.acked
        fh.modified := s.fh.modified.delete offset (offset + sent.count) hpos }, some (offset + sent.count))

theorem sendPiece_spec (env : ReintEnv) (s : Reint) (offset count : ℕ) :
    Piece env s offset count (s.sendPiece env offset count) := by
  unfold Reint.sendPiece
  split
  · rename_i r hread
    exact .idle _ fun h => absurd (hread.symm.trans (h.read offset)) (by simp)
  simp only
  split_ifs with hbusy hcode hpos
  · exact .idle _ fun h => absurd (hbusy.2.2.symm.trans (h.free offset)) (by simp)
  all_goals
    obtain ⟨t, ht, htcode, ⟨heq, hcount⟩ | ⟨r, heq, k, hk⟩ | ⟨n, r, heq, hlt, k, hk⟩⟩ :=
      fullRemoteWriteDentry_spec (env.piece offset).write _ _
        (sentOk_start _ offset (s.fh.data.read offset count) s.master) rfl (Nat.le_add_left _ _)
  · rw [heq] at hcode
    exact absurd htcode hcode
  · rw [heq]
    refine .broken t _ _ ht r.2 (Or.inl rfl) fun h => ?_
    obtain ⟨n, hn⟩ := h.write offset k
    simp [hn] at hk
  · rw [heq]
    refine .broken t _ _ ht r.2 (Or.inr ⟨hlt, _, _, rfl⟩) fun h => ?_
    obtain ⟨n, hn⟩ := h.write offset k
    simp [hn] at hk
  · simp only [heq] at hpos ⊢
    rw [htcode]
    exact .sent t ht hcount (by omega)
  · rw [heq, not_not] at hcode
    exact absurd hcode r.2
  · rw [heq, not_not] at hcode
    exact absurd hcode r.2
  · -- an empty buffer takes no request
    rw [heq] at hpos
    have hnil : s.fh.data.read offset count = [] := List.eq_nil_of_length_eq_zero (by omega)
    simp only [hnil, List.length_nil, fullRemoteWriteDentry, Nat.add_zero]
    exact .idle ZFS_OK fun _ => ⟨rfl, hnil⟩
  · rw [heq, not_not] at hcode
    exact absurd hcode r.2
  · rw [heq, not_not] at hcode
    exact absurd hcode r.2

/-- The loop changes nothing of the local file but the modified tree, from which it only takes
intervals, and it counts what the master acknowledged. -/
structure Looped (s t : Reint) : Prop where
  metadata : t.fh.metadata = s.fh.metadata
  attr : t.fh.attr = s.fh.attr
  users : t.fh.users = s.fh.users
  data : t.fh.data = s.fh.data
  nodes : s.fh.modified.nodes = [] → t.fh.modified.nodes = []
  attrs : t.master.mode = s.master.mode ∧ t.master.uid = s.master.uid ∧ t.master.gid = s.master.gid

theorem Looped.trans {s t u : Reint} (h : Looped s t) (h' : Looped t u) : Looped s u :=
  ⟨h'.metadata.trans h.metadata, h'.attr.trans h.attr, h'.users.trans h.users, h'.data.trans h.data,
    fun hn => h'.nodes (h.nodes hn), h'.attrs.1.trans h.attrs.1, h'.attrs.2.1.trans h.attrs.2.1,
    h'.attrs.2.2.trans h.attrs.2.2⟩

variable {env : ReintEnv} {s : Reint}

theorem looped_piece {offset count : ℕ} {t : Reint × Option ℕ} (h : Piece env s offset count t) : Looped s t.1 := by
  cases h with
  | idle r h => exact ⟨rfl, rfl, rfl, rfl, fun hn => hn, rfl, rfl, rfl⟩
  | broken sent master r hsent hr hmaster h =>
    refine ⟨rfl, rfl, rfl, rfl, fun hn => hn, ?_⟩
    rcases hmaster with rfl | ⟨-, off, bytes, rfl⟩ <;> exact hsent.attrs
  | sent sent hsent hcount hpos =>
    exact ⟨rfl, rfl, rfl, rfl, fun hn => IntervalTree.delete_nil hpos hn, hsent.attrs⟩

theorem reintegrateRange_some {modified : IntervalTree} {offset start count : ℕ}
    (h : reintegrateRange modified offset = some (start, count)) :
    offset ≤ start ∧ (∀ x, offset ≤ x → x < start → x ∉ modified) ∧
      ((∀ s ∈ modified.nodes, s.start < s.stop) → 0 < count) := by
  obtain ⟨node, hnode, heq⟩ := Option.map_eq_some_iff.mp h
  obtain ⟨rfl, rfl⟩ := Prod.mk.inj heq
  obtain ⟨hmem, -, hfirst⟩ := IntervalTree.lookup_some hnode
  refine ⟨le_max_left _ _, fun x hx hlt hxm => ?_, fun hproper => ?_⟩
  · have := hfirst x hx hxm
    omega
  · have := hproper node hmem
    simp only [ZFS_MAXDATA]
    omega

theorem reintegrateRange_none {modified : IntervalTree} {offset : ℕ}
    (h : reintegrateRange modified offset = none) : ∀ x, offset ≤ x → x ∉ modified :=
  IntervalTree.lookup_none (Option.map_eq_none_iff.mp h)

/-- Rule for the loop: `P` holds at its head, `Q` where it ends. -/
theorem reintegrateLoop_rule (P : ℕ → Reint → Prop) (Q : Reint → Prop)
    (hstop : ∀ offset s, P offset s →
      s.fh.attr.size ≤ offset ∨ reintegrateRange s.fh.modified offset = none → Q s)
    (hend : ∀ offset s start count t, P offset s →
      reintegrateRange s.fh.modified offset = some (start, count) → Piece env s start count (t, none) → Q t)
    (hnext : ∀ offset s start count t next, P offset s →
      reintegrateRange s.fh.modified offset = some (start, count) → Piece env s start count (t, some next) →
      P next t) :
    ∀ fuel offset s, P offset s → s.fh.attr.size < offset + fuel → Q (reintegrateLoop env fuel offset s) := by
  intro fuel
  induction fuel with
  | zero =>
    intro offset s h hfuel
    exact hstop offset s h (Or.inl (by omega))
  | succ fuel ih =>
    intro offset s h hfuel
    unfold reintegrateLoop reintegrateRound
    split_ifs with hlt
    · cases hrange : reintegrateRange s.fh.modified offset with
      | none => exact hstop offset s h (Or.inr hrange)
      | some range =>
        obtain ⟨start, count⟩ := range
        have hpiece := sendPiece_spec env s start count
        have hle := (reintegrateRange_some hrange).1
        cases hres : s.sendPiece env start count with
        | mk t next =>
          rw [hres] at hpiece
          simp only [hres]
          cases next with
          | none => exact hend offset s start count t h hrange hpiece
          | some next =>
            refine ih next t (hnext offset s start count t next h hrange hpiece) ?_
            have hattr := (looped_piece hpiece).attr
            simp only at hattr
            cases hpiece
            simp only
            omega
    · exact hstop offset s h (Or.inl (by omega))

theorem reintegrateLoop_looped (env : ReintEnv) (s : Reint) {fuel : ℕ} (hfuel : s.fh.attr.size < fuel) :
    Looped s (reintegrateLoop env fuel 0 s) := by
  refine reintegrateLoop_rule (fun _ t => Looped s t) (Looped s) ?_ ?_ ?_ fuel 0 s ?_ (by omega)
  · exact fun _ _ h _ => h
  · exact fun _ _ _ _ _ h _ hp => h.trans (looped_piece hp)
  · exact fun _ _ _ _ _ _ h _ hp => h.trans (looped_piece hp)
  · exact ⟨rfl, rfl, rfl, rfl, fun hn => hn, rfl, rfl, rfl⟩

/-- The local bytes that are not modified are those of the master. -/
def Reint.Copied (s : Reint) : Prop :=
  ∀ i < s.fh.data.size, i ∉ s.fh.modified → s.fh.data.byte i = s.master.data.byte i

theorem copied_sent {ans : ℕ → WriteAns} {start count : ℕ} {sent : Sent} (h : s.Copied)
    (hsent : SentOk ans start (s.fh.data.read start count) s.master sent)
    (hcount : sent.count = (s.fh.data.read start count).length) (hpos : start < start + sent.count) :
    ∀ i < s.fh.data.size, i ∉ s.fh.modified.delete start (start + sent.count) hpos →
      s.fh.data.byte i = sent.master.data.byte i := by
  intro i hi hmod
  rw [IntervalTree.mem_delete] at hmod
  rw [hsent.data, hcount, List.take_length]
  have hlen : (s.fh.data.read start count).length = min count (s.fh.data.size - start) :=
    FlatFile.length_read _ _ _
  by_cases hin : start ≤ i ∧ i < start + sent.count
  · rw [FlatFile.byte_write _ _ 0 hin.1 (by omega), FlatFile.getD_read _ _ _ _ _ (by omega) (by omega)]
    congr 1
    omega
  · have hold := h i hi fun hm => hmod ⟨hm, hin⟩
    rcases lt_or_ge i start with hlt | hge
    · rw [FlatFile.byte_write_of_lt _ _ hlt, hold]
    · rw [FlatFile.byte_write_of_ge _ _ (by omega), hold]

/-- Without errors the loop sends everything below the end of the file. -/
theorem reintegrateLoop_copied (hclean : env.Clean) {fuel : ℕ}
    (hfuel : s.fh.attr.size < fuel) (hcode : s.code = ZFS_OK) (hsize : s.fh.attr.size = s.fh.data.size)
    (hproper : ∀ n ∈ s.fh.modified.nodes, n.start < n.stop) (hcopied : s.Copied) :
    let t := reintegrateLoop env fuel 0 s
    t.code = ZFS_OK ∧ t.Copied ∧ ∀ i < t.fh.data.size, i ∉ t.fh.modified := by
  refine reintegrateLoop_rule
    (fun offset t => t.code = ZFS_OK ∧ t.Copied ∧ t.fh.attr.size = t.fh.data.size ∧
      (∀ n ∈ t.fh.modified.nodes, n.start < n.stop) ∧ ∀ i < offset, i ∉ t.fh.modified)
    (fun t => t.code = ZFS_OK ∧ t.Copied ∧ ∀ i < t.fh.data.size, i ∉ t.fh.modified) ?_ ?_ ?_ fuel 0 s
    ⟨hcode, hcopied, hsize, hproper, by simp⟩ (by omega)
  · rintro offset t ⟨hc, hcop, hsz, -, hclear⟩ hstop
    refine ⟨hc, hcop, fun i hi => ?_⟩
    rcases hstop with hge | hnone
    · exact hclear i (by omega)
    · by_cases hlt : i < offset
      · exact hclear i hlt
      · exact reintegrateRange_none hnone i (by omega)
  · rintro offset t start count u ⟨-, hcop, hsz, hprop, hclear⟩ hrange hpiece
    obtain ⟨-, hgap, hpos⟩ := reintegrateRange_some hrange
    cases hpiece with
    | idle r h =>
      obtain ⟨rfl, hnil⟩ := h hclean
      refine ⟨rfl, hcop, fun i hi hm => ?_⟩
      have hlen := congrArg List.length hnil
      rw [FlatFile.length_read, List.length_nil] at hlen
      have hcount := hpos hprop
      simp only at hi
      by_cases hlt : i < offset
      · exact hclear i hlt hm
      · exact hgap i (by omega) (by omega) hm
    | broken sent master r hsent hr hmaster h => exact absurd hclean h
  · rintro offset t start count u next ⟨-, hcop, hsz, hprop, hclear⟩ hrange hpiece
    obtain ⟨-, hgap, -⟩ := reintegrateRange_some hrange
    cases hpiece with
    | sent sent hsent hcount hpos =>
      refine ⟨rfl, copied_sent hcop hsent hcount hpos, hsz, deleteNodes_lt _ _ hprop, fun i hi hm => ?_⟩
      simp only [IntervalTree.mem_delete] at hm
      by_cases hlt : i < offset
      · exact hclear i hlt hm.1
      · exact hgap i (by omega) (by omega) hm.1

/-! ## The versions -/

/-- The master made as many changes since it had the version `v` as were counted. -/
def Reint.Counted (v : ℕ) (s : Reint) : Prop := s.master.version = u64 (v + s.versionIncrease)

theorem SentOk.counted {ans : ℕ → WriteAns} {offset v : ℕ} {buf : List UInt8} {t : Reint} {sent : Sent}
    (hsent : SentOk ans offset buf t.master sent) (h : t.Counted v) :
    sent.master.version = u64 (v + (t.versionIncrease + sent.acked)) := by
  rw [Reint.Counted] at h
  rw [hsent.version (by rw [h]; exact u64_lt _), h, u64_add_u64, Nat.add_assoc]

/-- What the loop counts is at most one for every byte sent, and the master counts the same; only
a request whose answer was lost is not counted here. -/
theorem reintegrateLoop_counted (env : ReintEnv) {fuel : ℕ} (hfuel : s.fh.attr.size < fuel)
    (hcode : s.code = ZFS_OK) (hzero : s.versionIncrease = 0) (hv : s.master.version < 2 ^ 64) :
    let t := reintegrateLoop env fuel 0 s
    t.versionIncrease ≤ s.fh.data.size ∧ (t.Counted s.master.version ∨
      t.code ≠ ZFS_OK ∧ ¬ env.Clean ∧ t.master.version = u64 (s.master.version + t.versionIncrease + 1)) := by
  have hread : ∀ (t : Reint) (start count n : ℕ), t.fh.data = s.fh.data → n ≤ (t.fh.data.read start count).length →
      0 < n → start + n ≤ s.fh.data.size := fun t start count n hd hn hpos => by
    rw [FlatFile.length_read, hd] at hn
    omega
  refine reintegrateLoop_rule
    (fun offset t => t.code = ZFS_OK ∧ t.fh.data = s.fh.data ∧ t.versionIncrease ≤ min offset s.fh.data.size ∧
      t.Counted s.master.version)
    (fun t => t.versionIncrease ≤ s.fh.data.size ∧ (t.Counted s.master.version ∨ t.code ≠ ZFS_OK ∧ ¬ env.Clean ∧
      t.master.version = u64 (s.master.version + t.versionIncrease + 1)))
    ?_ ?_ ?_ fuel 0 s ⟨hcode, rfl, by omega, by rw [Reint.Counted, hzero, Nat.add_zero, u64_of_lt hv]⟩ (by omega)
  · rintro offset t ⟨-, -, hle, hcounted⟩ -
    exact ⟨by omega, Or.inl hcounted⟩
  · rintro offset t start count u ⟨-, hd, hle, hcounted⟩ hrange hpiece
    have hstart := (reintegrateRange_some hrange).1
    cases hpiece with
    | idle r h => exact ⟨by simp only; omega, Or.inl hcounted⟩
    | broken sent master r hsent hr hmaster h =>
      have hacked := hsent.acked_le
      refine ⟨?_, ?_⟩
      · have := hread t start count sent.count hd hsent.count_le
        simp only
        omega
      · rcases hmaster with rfl | ⟨-, off, bytes, rfl⟩
        · exact Or.inl (hsent.counted hcounted)
        · refine Or.inr ⟨hr, h, ?_⟩
          simp only [Master.write]
          rw [hsent.counted hcounted, u64_add_u64]
  · rintro offset t start count u next ⟨-, hd, hle, hcounted⟩ hrange hpiece
    have hstart := (reintegrateRange_some hrange).1
    cases hpiece with
    | sent sent hsent hcount hpos =>
      have hacked := hsent.acked_le
      have := hread t start count sent.count hd hsent.count_le (by omega)
      exact ⟨rfl, hd, by simp only; omega, hsent.counted hcounted⟩

theorem adjustSize_spec (env : ReintEnv) (s : Reint) : let t := s.adjustSize env
    t.fh = s.fh ∧ t.code = s.code ∧ t.versionIncrease ≤ s.versionIncrease + 1 ∧
      (t.master.mode = s.master.mode ∧ t.master.uid = s.master.uid ∧ t.master.gid = s.master.gid) ∧
      (t.master.version = s.master.version ∧ t.versionIncrease = s.versionIncrease ∨
        t.master.version = u64 (s.master.version + 1) ∧
          (t.versionIncrease = s.versionIncrease + 1 ∨ t.versionIncrease = s.versionIncrease ∧ env.setattr ≠ .ok)) := by
  unfold Reint.adjustSize
  split_ifs with h
  · cases hans : env.setattr with
    | ok => exact ⟨rfl, rfl, le_rfl, ⟨rfl, rfl, rfl⟩, Or.inr ⟨rfl, Or.inl rfl⟩⟩
    | fails performed r =>
      cases performed with
      | true => exact ⟨rfl, rfl, Nat.le_succ _, ⟨rfl, rfl, rfl⟩, Or.inr ⟨rfl, Or.inr ⟨rfl, by simp⟩⟩⟩
      | false => exact ⟨rfl, rfl, Nat.le_succ _, ⟨rfl, rfl, rfl⟩, Or.inl ⟨rfl, rfl⟩⟩
  · exact ⟨rfl, rfl, Nat.le_succ _, ⟨rfl, rfl, rfl⟩, Or.inl ⟨rfl, rfl⟩⟩

theorem adjustSize_data (hclean : env.Clean) (s : Reint) :
    (s.adjustSize env).master.data = s.master.data.truncate s.fh.attr.size := by
  unfold Reint.adjustSize
  split_ifs with h
  · rw [hclean.setattr]
    rfl
  · have hsize : s.fh.attr.size = s.master.data.size := not_not.mp fun hne => h ⟨hclean.getattr, hne⟩
    rw [hsize, FlatFile.truncate_self]

@[simp] theorem raiseVersion_fh (env : ReintEnv) (s : Reint) :
    (s.raiseVersion env).fh.data = s.fh.data ∧ (s.raiseVersion env).fh.modified = s.fh.modified ∧
      (s.raiseVersion env).fh.metadata = s.fh.metadata ∧ (s.raiseVersion env).fh.users = s.fh.users ∧
      (s.raiseVersion env).fh.attr = { s.fh.attr with version := (s.raiseVersion env).fh.attr.version } ∧
      (s.raiseVersion env).master.data = s.master.data ∧ (s.raiseVersion env).master.mode = s.master.mode ∧
      (s.raiseVersion env).master.uid = s.master.uid ∧ (s.raiseVersion env).master.gid = s.master.gid := by
  unfold Reint.raiseVersion
  split_ifs with h
  · cases env.reintegrateVer with
    | ok => simp [Master.reintegrateVer]
    | fails performed r => cases performed <;> simp [Master.reintegrateVer]
  · simp

/-! ## The versions at the end -/

theorem reintegratedVersions_same (fh : InternalFh) (n : ℕ) : let fh' := fh.reintegratedVersions n
    fh'.data = fh.data ∧ fh'.modified = fh.modified ∧ fh'.users = fh.users ∧
      fh'.attr = { fh.attr with version := fh'.attr.version } ∧
      fh'.metadata = { fh.metadata with
        localVersion := fh'.metadata.localVersion, masterVersion := fh'.metadata.masterVersion } := by
  unfold InternalFh.reintegratedVersions
  split_ifs <;> exact ⟨rfl, rfl, rfl, rfl, rfl⟩

theorem reintegratedVersions_master (fh : InternalFh) (n : ℕ) (h : fh.metadata.masterVersion < 2 ^ 64) :
    (fh.reintegratedVersions n).metadata.masterVersion = u64 (fh.metadata.masterVersion + n) := by
  unfold InternalFh.reintegratedVersions
  split_ifs with hn
  · rw [hn, Nat.add_zero, u64_of_lt h]
  · rfl

theorem aheadOf_spec {fh : InternalFh} {v : ℕ} (hv : v < 2 ^ 64) (hbound : fh.metadata.localVersion < 2 ^ 64)
    (hroom : fh.modified.nodes ≠ [] → v + 1 < 2 ^ 64) :
    v ≤ fh.aheadOf v ∧ fh.aheadOf v < 2 ^ 64 ∧ (fh.modified.nodes ≠ [] → v < fh.aheadOf v) := by
  unfold InternalFh.aheadOf
  by_cases hnodes : fh.modified.nodes = []
  · rw [if_neg (not_not.mpr hnodes)]
    refine ⟨?_, ?_, fun h => absurd hnodes h⟩ <;> split_ifs <;> omega
  · rw [if_pos hnodes, u64_of_lt (hroom hnodes)]
    have hroom := hroom hnodes
    refine ⟨?_, ?_, fun _ => ?_⟩ <;> split_ifs <;> omega

/-- The local version does not fall behind the one of the master, and stays ahead of it while the tree
is not empty. -/
theorem reintegratedVersions_le (fh : InternalFh) (n : ℕ)
    (hroom : fh.modified.nodes ≠ [] → u64 (fh.metadata.masterVersion + n) + 1 < 2 ^ 64)
    (hle : fh.metadata.masterVersion ≤ fh.metadata.localVersion) (hbound : fh.metadata.localVersion < 2 ^ 64) :
    let fh' := fh.reintegratedVersions n
    fh'.metadata.masterVersion ≤ fh'.metadata.localVersion ∧ fh'.metadata.localVersion < 2 ^ 64 ∧
      (fh.modified.nodes ≠ [] → fh.metadata.masterVersion < fh.metadata.localVersion →
        fh'.metadata.masterVersion < fh'.metadata.localVersion) := by
  unfold InternalFh.reintegratedVersions
  split_ifs with hn
  · exact ⟨hle, hbound, fun _ h => h⟩
  · obtain ⟨h1, h2, h3⟩ := aheadOf_spec (u64_lt _) hbound hroom
    exact ⟨h1, h2, fun h _ => h3 h⟩

theorem raiseVersion_counted (hans : env.reintegrateVer = .ok) {v : ℕ}
    (h : s.Counted v) : (s.raiseVersion env).Counted v := by
  rw [Reint.Counted] at h ⊢
  unfold Reint.raiseVersion
  split_ifs with hraise
  · rw [hans]
    simp only [Master.reintegrateVer, h]
    rw [u64_add_u64, Nat.add_comm v (u64 _), u64_add_u64, Nat.add_comm _ v, Nat.add_assoc]
  · exact h

theorem adjustSize_counted (hans : env.setattr = .ok) {v : ℕ} (h : s.Counted v) : (s.adjustSize env).Counted v := by
  obtain ⟨-, -, -, -, ⟨hver, hinc⟩ | ⟨hver, hinc | ⟨-, hne⟩⟩⟩ := adjustSize_spec env s
  · rw [Reint.Counted, hver, hinc]
    exact h
  · rw [Reint.Counted, hver, hinc, h, u64_add_u64, Nat.add_assoc]
  · exact absurd hans hne

theorem finish_master (hclean : env.Clean) (hb : s.fh.metadata.masterVersion < 2 ^ 64)
    (hcounted : s.Counted s.fh.metadata.masterVersion) : let t := s.raiseVersion env
    (t.fh.reintegratedVersions t.versionIncrease).metadata.masterVersion = t.master.version := by
  intro t
  obtain ⟨-, -, hmeta, -⟩ := raiseVersion_fh env s
  have h := reintegratedVersions_master t.fh t.versionIncrease (by rw [hmeta]; exact hb)
  rw [hmeta] at h
  exact h.trans (raiseVersion_counted hclean.reintegrateVer hcounted).symm

theorem finish_versions (hclean : env.Clean)
    (hv : s.fh.metadata.masterVersion ≤ s.fh.metadata.localVersion) (hb : s.fh.metadata.localVersion < 2 ^ 64)
    (hroom : s.fh.metadata.masterVersion + s.versionIncrease + 1 < 2 ^ 64)
    (hcounted : s.Counted s.fh.metadata.masterVersion) : let t := s.raiseVersion env
    let fh := t.fh.reintegratedVersions t.versionIncrease
    fh.metadata.masterVersion = t.master.version ∧ fh.metadata.masterVersion ≤ fh.metadata.localVersion ∧
      fh.metadata.localVersion < 2 ^ 64 := by
  intro t fh
  obtain ⟨-, hmod, hmeta, -⟩ := raiseVersion_fh env s
  have hle := reintegratedVersions_le t.fh t.versionIncrease (fun hne => ?_) (by rw [hmeta]; exact hv)
    (by rw [hmeta]; exact hb)
  · exact ⟨finish_master hclean (by omega) hcounted, hle.1, hle.2.1⟩
  · -- a tree that is not empty keeps the version from being raised
    have hinc : t.versionIncrease = s.versionIncrease := by
      have hraise : s.raises = false := by
        rw [hmod] at hne
        simp [Reint.raises, hne]
      simp [t, Reint.raiseVersion, hraise]
    rw [hmeta, hinc, u64_of_lt (by omega)]
    exact hroom

theorem finish_spec (s : Reint) :
    InternalFh.SameFile (s.fh.reintegratedVersions s.versionIncrease) s.finish.fh ∧ s.finish.master = s.master ∧
      s.finish.fh.modified.nodes = s.fh.modified.nodes ∧
      ((s.fh.reintegratedVersions s.versionIncrease).FlagOk → s.finish.fh.FlagOk) := by
  have hsame := InternalFh.flushDeleted_same
    { s.fh.reintegratedVersions s.versionIncrease with reintegrating := false }
  refine ⟨⟨hsame.attr, hsame.data, hsame.users, hsame.localVersion, hsame.masterVersion, hsame.mode, hsame.uid,
    hsame.gid⟩, rfl, ?_, fun h => ?_⟩
  · refine (InternalFh.flushDeleted_nodes _).trans ?_
    exact congrArg IntervalTree.nodes (reintegratedVersions_same s.fh s.versionIncrease).2.1
  · have hflag : { s.fh.reintegratedVersions s.versionIncrease with reintegrating := false }.FlagOk := h
    exact hflag.flushDeleted

/-! ## The whole call -/

def Reint.start (fh : InternalFh) (master : Master) : Reint :=
  ⟨ZFS_OK, { fh with reintegrating := true }, master, 0⟩

/-- A call that gets the privilege, up to the point where the versions are settled. -/
def reintegrateStages (env : ReintEnv) (fh : InternalFh) (master : Master) : Reint :=
  (reintegrateLoop env (fh.attr.size + 1) 0 (.start fh master)).adjustSize env

theorem reintegrateFileBlocks_privileged (h : env.privilege = ZFS_OK) (fh : InternalFh)
    (master : Master) :
    reintegrateFileBlocks env fh master = ((reintegrateStages env fh master).raiseVersion env).finish := by
  unfold reintegrateFileBlocks
  rw [h, if_neg (by decide), if_neg (by decide)]
  rfl

theorem reintegrateStages_looped (env : ReintEnv) (fh : InternalFh) (master : Master) :
    Looped (.start fh master) (reintegrateStages env fh master) := by
  have h : Looped (.start fh master) (reintegrateLoop env (fh.attr.size + 1) 0 (.start fh master)) :=
    reintegrateLoop_looped env _ (Nat.lt_succ_self _)
  obtain ⟨hfh, -, -, hattrs, -⟩ := adjustSize_spec env (reintegrateLoop env (fh.attr.size + 1) 0 (.start fh master))
  refine h.trans ⟨?_, ?_, ?_, ?_, ?_, hattrs⟩ <;> rw [reintegrateStages, hfh]
  exact fun hn => hn

theorem reintegrateStages_increase (env : ReintEnv) (fh : InternalFh) {master : Master}
    (hv : master.version < 2 ^ 64) : (reintegrateStages env fh master).versionIncrease ≤ fh.data.size + 1 := by
  obtain ⟨hinc, -⟩ := reintegrateLoop_counted env (Nat.lt_succ_self (Reint.start fh master).fh.attr.size) rfl rfl hv
  obtain ⟨-, -, hadd, -⟩ := adjustSize_spec env (reintegrateLoop env (fh.attr.size + 1) 0 (.start fh master))
  exact hadd.trans (Nat.succ_le_succ hinc)

theorem reintegrateStages_counted (hclean : env.Clean) (fh : InternalFh) {master : Master}
    (hv : master.version < 2 ^ 64) : (reintegrateStages env fh master).Counted master.version := by
  obtain ⟨-, hcounted⟩ := reintegrateLoop_counted env (Nat.lt_succ_self (Reint.start fh master).fh.attr.size) rfl
    rfl hv
  rcases hcounted with h | ⟨-, hbad, -⟩
  · exact adjustSize_counted hclean.setattr h
  · exact absurd hclean hbad

/-- Without errors the master has the local file at the end, if every difference was in the tree and
the cached size is that of the file. -/
theorem reintegrateStages_data (hclean : env.Clean) {fh : InternalFh} {master : Master}
    (hsize : fh.attr.size = fh.data.size) (hproper : ∀ n ∈ fh.modified.nodes, n.start < n.stop)
    (hcopied : ∀ i < fh.data.size, i ∉ fh.modified → fh.data.byte i = master.data.byte i) :
    (reintegrateStages env fh master).master.data = fh.data := by
  have hfuel : (Reint.start fh master).fh.attr.size < fh.attr.size + 1 := Nat.lt_succ_self _
  obtain ⟨-, hcop, hclear⟩ := reintegrateLoop_copied hclean hfuel rfl hsize hproper hcopied
  have hloop := reintegrateLoop_looped env (.start fh master) hfuel
  rw [reintegrateStages, adjustSize_data hclean]
  have hattr : (reintegrateLoop env (fh.attr.size + 1) 0 (.start fh master)).fh.attr.size = fh.data.size := by
    rw [hloop.attr]
    exact hsize
  refine FlatFile.ext' hattr fun i => ?_
  rw [hattr, FlatFile.byte_truncate]
  split_ifs with hi
  · have hi' : i < (reintegrateLoop env (fh.attr.size + 1) 0 (.start fh master)).fh.data.size := by
      rw [hloop.data]
      exact hi
    have hbyte := hcop i hi' (hclear i hi')
    rw [hloop.data] at hbyte
    exact hbyte.symm
  · exact (fh.data.beyond i (by omega)).symm

end ZFS
