import ZlomekFS.Proofs.FileTrees
import ZlomekFS.Spec.ReintegrateSteps

/-! Reintegration while the file is written. The buffer of the reintegration always holds bytes of
the `modified` tree. It also holds what the local file has, and the master gets what the local
file has, as long as no write changes a byte between its read and its removal from the tree. -/

namespace ZFS
open ReintState

def ReintStart (s : ReintState) : Prop := s.pc = .lookup 0

def AnyEvent (_ : ReintState) (_ : ReintEvent) : Prop := True

/-- The events that keep off the race: a write changes no byte that the reintegration has read and
not yet removed from the tree. -/
def QuietEvent (s : ReintState) : ReintEvent → Prop
  | .writeBytes offset bytes => ∀ j < s.inFlight.2.length,
      (s.fh.data.write offset bytes).byte (s.inFlight.1 + j) = s.fh.data.byte (s.inFlight.1 + j)
  | _ => True

instance (s : ReintState) (e : ReintEvent) : Decidable (QuietEvent s e) := by
  unfold QuietEvent
  split <;> infer_instance

/-! ## What the buffer holds -/

def Marked (buf : List Sample) : Prop := ∀ x ∈ buf, x.wasModified = true

/-- The buffer holds the local bytes from `offset` on. -/
def Fresh (fh : InternalFh) (offset : ℕ) (buf : List Sample) : Prop :=
  ∀ j x, buf[j]? = some x → x.byte = fh.data.byte (offset + j)

/-- The master has the first `total` bytes of the buffer. -/
def Stored (master : FlatFile UInt8) (offset : ℕ) (buf : List Sample) (total : ℕ) : Prop :=
  ∀ j x, j < total → buf[j]? = some x → master.byte (offset + j) = x.byte

/-- Where the next interval is looked up nothing right before the offset is in the tree, and what
is read or sent is in the tree. If the writes are quiet, the buffer is what the local file has. -/
def PcOk (quiet : Prop) (s : ReintState) : Prop :=
  match s.pc with
  | .lookup offset => ∀ x, x + 1 = offset → x ∉ s.fh.modified
  | .read offset count buf =>
    (∀ j < count, offset + j ∈ s.fh.modified) ∧ buf.length ≤ count ∧ Marked buf ∧ (quiet → Fresh s.fh offset buf)
  | .send offset buf total =>
    (∀ j < buf.length, offset + j ∈ s.fh.modified) ∧ Marked buf ∧
      (quiet → Fresh s.fh offset buf ∧ Stored s.master offset buf total)
  | .done => True

/-- An interval that does not start before the offset is cut within itself, although its length is
counted from its start. -/
theorem reintegrateRange_mem {modified : IntervalTree} {offset start count : ℕ}
    (h : reintegrateRange modified offset = some (start, count))
    (hclear : ∀ x, x + 1 = offset → x ∉ modified) : ∀ j < count, start + j ∈ modified := by
  intro j hj
  unfold reintegrateRange at h
  rw [Option.map_eq_some_iff] at h
  obtain ⟨node, hnode, heq⟩ := h
  obtain ⟨rfl, rfl⟩ := Prod.mk.inj heq
  obtain ⟨hmem, hpos, -⟩ := IntervalTree.lookup_some hnode
  have hstart : offset ≤ node.start := by
    by_contra hlt
    refine hclear (offset - 1) (by omega) (IntervalTree.mem_of_node hmem ?_)
    omega
  exact IntervalTree.mem_of_node hmem (by omega)

variable {quiet : Prop} {buf : List Sample} {s s' : ReintState}

theorem Marked.append_sampleNext {s : ReintState} {offset n : ℕ} (h : Marked buf)
    (hmod : ∀ j < n, offset + buf.length + j ∈ s.fh.modified) : Marked (buf ++ s.sampleNext offset n buf) := by
  intro x hx
  rcases List.mem_append.mp hx with hx | hx
  · exact h x hx
  · unfold sampleNext at hx
    rw [List.mem_mapIdx] at hx
    obtain ⟨j, hj, rfl⟩ := hx
    rw [FlatFile.length_read] at hj
    simpa using hmod j (by omega)

theorem Fresh.append_sampleNext {s : ReintState} {offset n : ℕ}
    (h : Fresh s.fh offset buf) : Fresh s.fh offset (buf ++ s.sampleNext offset n buf) := by
  intro j x hx
  rcases lt_or_ge j buf.length with hj | hj
  · rw [List.getElem?_append_left hj] at hx
    exact h j x hx
  · rw [List.getElem?_append_right hj] at hx
    unfold sampleNext at hx
    rw [List.getElem?_mapIdx, Option.map_eq_some_iff] at hx
    obtain ⟨b, hb, rfl⟩ := hx
    have hlen : j - buf.length < min n (s.fh.data.size - (offset + buf.length)) := by
      have := (List.getElem?_eq_some_iff.mp hb).1
      simpa using this
    have hbyte := s.fh.data.getD_read (offset + buf.length) n (j - buf.length) 0 (by omega) (by omega)
    rw [List.getD_eq_getElem?_getD, hb, Option.getD_some] at hbyte
    simp only [hbyte]
    congr 1
    omega

theorem Fresh.take {fh : InternalFh} {offset : ℕ} (h : Fresh fh offset buf)
    (n : ℕ) : Fresh fh offset (buf.take n) := by
  intro j x hx
  rw [List.getElem?_take] at hx
  split_ifs at hx
  exact h j x hx

theorem Stored.take {master : FlatFile UInt8} {offset total : ℕ}
    (h : Stored master offset buf total) (n : ℕ) : Stored master offset (buf.take n) total := by
  intro j x hj hx
  rw [List.getElem?_take] at hx
  split_ifs at hx
  exact h j x hj hx

theorem Stored.storeNext {s : ReintState} {offset total n : ℕ}
    (h : Stored s.master offset buf total) : Stored (s.storeNext offset total n buf) offset buf (total + n) := by
  intro j x hj hx
  have hjlen := (List.getElem?_eq_some_iff.mp hx).1
  unfold ReintState.storeNext
  rcases lt_or_ge j total with hlt | hge
  · rw [FlatFile.byte_write_of_lt _ _ (by omega)]
    exact h j x hlt hx
  · have hlen : (((buf.drop total).take n).map Sample.byte).length = min n (buf.length - total) := by
      simp
    rw [FlatFile.byte_write _ _ 0 (by omega) (by omega), List.getD_eq_getElem?_getD,
      show offset + j - (offset + total) = j - total by omega, List.getElem?_map, List.getElem?_take,
      if_pos (by omega), List.getElem?_drop, show total + (j - total) = j by omega, hx]
    rfl

theorem length_sampleNext_le (s : ReintState) (offset n : ℕ) (buf : List Sample) :
    (s.sampleNext offset n buf).length ≤ n := by
  simp [sampleNext]

theorem step_recordWrite {i : ℕ} (hst : s.step (.recordWrite i) = some s') :
    (∀ offset, s.pc ≠ .lookup offset) ∧ ∃ offset written, s' = { s with
      fh := s.fh.recordWrite offset written, pending := s.pending.eraseIdx i } := by
  cases hpc : s.pc with
  | lookup offset => simp [step, hpc] at hst
  | _ =>
    refine ⟨by simp, ?_⟩
    cases hp : s.pending[i]? with
    | none => simp [step, hpc, hp] at hst
    | some w =>
      simp only [step, hpc, hp, Option.some.injEq] at hst
      exact ⟨w.1, w.2, hst.symm⟩

/-! ## One step -/

/-- A quiet write leaves the bytes in flight as they were read. -/
theorem pcOk_writeBytes {offset : ℕ} {bytes : List UInt8} (h : PcOk quiet s)
    (hquiet : quiet → QuietEvent s (.writeBytes offset bytes))
    (hst : s.step (.writeBytes offset bytes) = some s') : PcOk quiet s' := by
  obtain rfl : _ = s' := Option.some.inj hst
  have hkeep : ∀ off buf, s.inFlight = (off, buf) → quiet → Fresh s.fh off buf →
      Fresh (s.fh.localWrite offset bytes) off buf := by
    intro off buf hf hq hs j x hx
    have hbyte := hquiet hq j (by rw [hf]; exact (List.getElem?_eq_some_iff.mp hx).1)
    rw [hf] at hbyte
    exact (hs j x hx).trans hbyte.symm
  unfold PcOk at h ⊢
  simp only
  cases hpc : s.pc with
  | lookup _ =>
    rw [hpc] at h
    exact h
  | done => trivial
  | read off count buf =>
    rw [hpc] at h
    exact ⟨h.1, h.2.1, h.2.2.1, fun hq => hkeep off buf (by simp [inFlight, hpc]) hq (h.2.2.2 hq)⟩
  | send off buf total =>
    rw [hpc] at h
    exact ⟨h.1, h.2.1, fun hq => (h.2.2 hq).imp_left (hkeep off buf (by simp [inFlight, hpc]) hq)⟩

theorem pcOk_recordWrite {i : ℕ} (h : PcOk quiet s) (hst : s.step (.recordWrite i) = some s') : PcOk quiet s' := by
  obtain ⟨hpc', offset, written, rfl⟩ := step_recordWrite hst
  have hmono : ∀ x, x ∈ s.fh.modified → x ∈ (s.fh.recordWrite offset written).modified :=
    fun x hx => InternalFh.mem_recordWrite_modified.mpr (Or.inl hx)
  unfold PcOk at h ⊢
  simp only
  cases hpc : s.pc with
  | lookup off => exact absurd hpc (hpc' off)
  | done => trivial
  | read off count buf | send off buf total =>
    rw [hpc] at h
    exact ⟨fun j hj => hmono _ (h.1 j hj), h.2⟩

theorem pcOk_lookup (h : PcOk quiet s) (hst : s.step .lookup = some s') : PcOk quiet s' := by
  simp only [step] at hst
  split at hst
  · rename_i offset hpc
    rw [PcOk, hpc] at h
    split_ifs at hst
    · split at hst
      · rename_i start count hrange
        obtain rfl := Option.some.inj hst
        by_cases hc : count = 0
        · simp [PcOk, hc]
        · simp only [PcOk, hc, if_false]
          exact ⟨reintegrateRange_mem hrange h, Nat.zero_le _, by simp [Marked], by simp [Fresh]⟩
      · obtain rfl := Option.some.inj hst
        trivial
    · obtain rfl := Option.some.inj hst
      trivial
  · simp at hst

theorem pcOk_read {n : ℕ} (h : PcOk quiet s) (hst : s.step (.read n) = some s') : PcOk quiet s' := by
  simp only [step] at hst
  split at hst
  · rename_i offset count buf hpc
    rw [PcOk, hpc] at h
    obtain ⟨hmod, hlen, hmark, hfresh⟩ := h
    have hstored : ∀ buf, Stored s.master offset buf 0 := fun _ j _ hj => absurd hj (Nat.not_lt_zero j)
    split_ifs at hst with hn hnil hbuf
    · obtain rfl := Option.some.inj hst
      trivial
    · obtain rfl := Option.some.inj hst
      exact ⟨fun j hj => hmod j (by omega), hmark, fun hq => ⟨hfresh hq, hstored _⟩⟩
    · obtain rfl := Option.some.inj hst
      have hnext := length_sampleNext_le s offset n buf
      have hmark' := Marked.append_sampleNext (s := s) (n := n) hmark fun j hj => by
        rw [Nat.add_assoc]
        exact hmod _ (by omega)
      unfold PcOk afterRead
      simp only
      split_ifs with hshort
      · exact ⟨hmod, hshort.le, hmark', fun hq => (hfresh hq).append_sampleNext⟩
      · refine ⟨fun j hj => hmod j ?_, hmark', fun hq => ⟨(hfresh hq).append_sampleNext, hstored _⟩⟩
        rw [List.length_append] at hj
        omega
  · simp at hst

theorem pcOk_send {n : ℕ} (h : PcOk quiet s) (hst : s.step (.send n) = some s') : PcOk quiet s' := by
  simp only [step] at hst
  split at hst
  · rename_i offset buf total hpc
    rw [PcOk, hpc] at h
    obtain ⟨hmod, hmark, hcopy⟩ := h
    split_ifs at hst with hn hzero htot
    · obtain rfl := Option.some.inj hst
      trivial
    · obtain rfl := Option.some.inj hst
      refine ⟨fun j hj => hmod j ?_, fun x hx => hmark x (List.mem_of_mem_take hx),
        fun hq => ⟨(hcopy hq).1.take total, (hcopy hq).2.take total⟩⟩
      rw [List.length_take] at hj
      omega
    · obtain rfl := Option.some.inj hst
      exact ⟨hmod, hmark, fun hq => ⟨(hcopy hq).1, (hcopy hq).2.storeNext⟩⟩
  · simp at hst

theorem step_remove (hst : s.step .remove = some s') :
    ∃ offset buf, ∃ h : 0 < buf.length, s.pc = .send offset buf buf.length ∧ s' = { s with
      fh := { s.fh with modified := s.fh.modified.delete offset (offset + buf.length) (by omega) }
      pc := .lookup (offset + buf.length) } := by
  simp only [step] at hst
  split at hst
  · rename_i offset buf total hpc
    split_ifs at hst with hcount
    obtain ⟨rfl, hpos⟩ := hcount
    exact ⟨offset, buf, hpos, hpc, (Option.some.inj hst).symm⟩
  · simp at hst

theorem pcOk_remove (hst : s.step .remove = some s') : PcOk quiet s' := by
  obtain ⟨offset, buf, hpos, -, rfl⟩ := step_remove hst
  intro x hx hmem
  simp only [IntervalTree.mem_delete] at hmem
  omega

theorem pcOk_step {e : ReintEvent} (h : PcOk quiet s) (hquiet : quiet → QuietEvent s e) (hst : s.step e = some s') :
    PcOk quiet s' := by
  cases e with
  | writeBytes offset bytes => exact pcOk_writeBytes h hquiet hst
  | recordWrite i => exact pcOk_recordWrite h hst
  | lookup => exact pcOk_lookup h hst
  | read n => exact pcOk_read h hst
  | send n => exact pcOk_send h hst
  | remove => exact pcOk_remove hst
  | _ =>
    -- the other events leave the loop or start it anew
    simp only [step] at hst
    split at hst <;> (try split_ifs at hst) <;> cases hst <;> simp [PcOk, *]

theorem pcOk_reach {guard : ReintState → ReintEvent → Prop} (hguard : ∀ s e, guard s e → quiet → QuietEvent s e)
    {s : ReintState} (h : Runs.Reach step guard ReintStart s) : PcOk quiet s := by
  refine h.inv (fun s hs => ?_) (fun s e s' hi hg hst => pcOk_step hi (hguard s e hg) hst)
  rw [PcOk, show s.pc = .lookup 0 from hs]
  intro x hx
  omega

theorem mem_modified_of_step {e : ReintEvent} (hst : s.step e = some s')
    (hne : e ≠ .remove) {x : ℕ} (hx : x ∈ s.fh.modified) : x ∈ s'.fh.modified := by
  cases e with
  | remove => exact absurd rfl hne
  | writeBytes offset bytes =>
    obtain rfl := Option.some.inj hst
    exact hx
  | recordWrite i =>
    obtain ⟨-, offset, written, rfl⟩ := step_recordWrite hst
    exact InternalFh.mem_recordWrite_modified.mpr (Or.inl hx)
  | lookup =>
    simp only [step] at hst
    split at hst
    · split_ifs at hst
      · split at hst <;> cases hst <;> exact hx
      · cases hst
        exact hx
    · simp at hst
  | _ =>
    simp only [step] at hst
    split at hst <;> (try split_ifs at hst) <;> cases hst <;> exact hx

/-- In every run the bytes handed to the master were in the tree when they were read. In every run
whose writes change no byte between its read and its removal, a byte leaves the tree only when
the master has what the local file has. -/
theorem reintegrate_interleaved (s s' : ReintState) (e : ReintEvent) (hst : s.step e = some s') :
    (Runs.Reach step AnyEvent ReintStart s → ∀ x ∈ s.sent e, x.wasModified = true) ∧
    (Runs.Reach step QuietEvent ReintStart s → QuietEvent s e →
      ∀ i, i ∈ s.fh.modified → i ∉ s'.fh.modified → s.master.byte i = s.fh.data.byte i) := by
  refine ⟨fun hr x hx => ?_, fun hr _ i hi hi' => ?_⟩
  · have ht : PcOk False s := pcOk_reach (fun _ _ _ hcon => hcon.elim) hr
    have hmark : ∀ n, e = .send n ∨ e = .sendFails n → x.wasModified = true := by
      rintro n (rfl | rfl)
      all_goals
        simp only [sent] at hx
        split at hx
        · rename_i offset buf total hpc
          rw [PcOk, hpc] at ht
          exact ht.2.1 x (List.mem_of_mem_drop hx)
        · simp at hx
    cases e with
    | send n => exact hmark n (Or.inl rfl)
    | sendFails n => exact hmark n (Or.inr rfl)
    | _ => simp [sent] at hx
  · have hok : PcOk True s := pcOk_reach (fun _ _ hq _ => hq) hr
    by_cases hrem : e = .remove
    · subst hrem
      obtain ⟨offset, buf, hpos, hpc, rfl⟩ := step_remove hst
      rw [PcOk, hpc] at hok
      obtain ⟨hfresh, hstored⟩ := hok.2.2 trivial
      simp only [IntervalTree.mem_delete] at hi'
      have hin : offset ≤ i ∧ i < offset + buf.length := by
        by_contra hout
        exact hi' ⟨hi, hout⟩
      obtain ⟨x, hx⟩ : ∃ x, buf[i - offset]? = some x :=
        ⟨_, List.getElem?_eq_getElem (show i - offset < buf.length by omega)⟩
      have h1 := hfresh _ x hx
      have h2 := hstored _ x (by omega) hx
      rw [show offset + (i - offset) = i by omega] at h1 h2
      rw [h2, h1]
    · exact absurd (mem_modified_of_step hst hrem hi) hi'

/-- Four bytes written locally, all still unknown to the master. -/
def fourModified : ReintState where
  fh := (InternalFh.synced [0, 0, 0, 0]).zfsWrite 0 [1, 1, 1, 1]
  master := FlatFile.ofList [0, 0, 0, 0]
  pending := []
  pc := .lookup 0

/-- A fifth byte is written while the first four are sent; it stays in the tree. -/
theorem reintegrate_quiet_run :
    ∃ s s', Runs.run step fourModified
        [.lookup, .read 4, .writeBytes 4 [7], .send 2, .recordWrite 0, .send 2] = some s ∧
      s.step .remove = some s' ∧ 0 ∈ s.fh.modified ∧ 0 ∉ s'.fh.modified ∧ 4 ∈ s'.fh.modified ∧
      s.master.byte 0 = s.fh.data.byte 0 := by
  have hstart : Runs.Reach step QuietEvent ReintStart fourModified := Runs.Reach.init rfl
  refine ⟨_, _, rfl, rfl, by decide, by decide, by decide, (reintegrate_interleaved _ _ .remove rfl).2 ?_ trivial 0
    (by decide) (by decide)⟩
  exact hstart.run [.lookup, .read 4, .writeBytes 4 [7], .send 2, .recordWrite 0, .send 2] (by decide) rfl

/-- The first byte is written again after it was read: it leaves the tree with the old value at the
master. -/
theorem reintegrate_loses_write :
    ReintStart fourModified ∧ ∃ s s',
      Runs.run step fourModified [.lookup, .read 4, .writeBytes 0 [9], .send 4, .recordWrite 0] = some s ∧
      s.step .remove = some s' ∧ 0 ∈ s.fh.modified ∧ 0 ∉ s'.fh.modified ∧
      s.master.byte 0 = 1 ∧ s.fh.data.byte 0 = 9 :=
  ⟨rfl, _, _, rfl, rfl, by decide, by decide, by decide, by decide⟩

end ZFS
