import ZlomekFS.Proofs.FileTrees
import ZlomekFS.Spec.UpdateSteps

/-! An update of the file while it is written. The updater protects local writes by the block list,
which leaves out what is modified, and by the version it notes before it writes. Between the two
there is a gap, and a write is noticed only when it is recorded. In every run that keeps out of
these gaps each byte keeps the value that the last `zfs_write` gave it. -/

namespace ZFS
open Spans UpdState InternalFh FlatFile List

namespace UpdPc

def ctx : UpdPc → Option UpdCtx
  | .request c | .localSums c .. | .versions c .. | .clear c .. | .resize c .. | .truncate c ..
  | .stat c .. | .adopt c .. | .capture c .. | .entries c .. | .readBack c .. | .write c ..
  | .append c .. => some c
  | .start | .done => none

def sums : UpdPc → List Chunk
  | .localSums _ _ es | .versions _ _ es .. | .clear _ _ es .. | .resize _ _ es .. | .truncate _ _ es ..
  | .stat _ _ es _ | .adopt _ _ es .. | .capture _ es _ => es
  | _ => []

/-- The ranges for which the version of the file is not noted yet. -/
def uncaptured (pc : UpdPc) : List Chunk :=
  pc.sums ++ (pc.ctx.elim [] fun c => c.rest.flatten)

end UpdPc

/-- The events that keep out of the gaps: no write is recorded into a block whose range is not yet
noted, the local file is neither written nor truncated over a write that is not recorded, and the
master does not report a smaller size than before. -/
def TimelyEvent (s : UpdState) : UpdEvent → Prop
  | .recordWrite i => ∀ w, s.pending[i]? = some w → s.fh.metadata.localVersion + 1 < 2 ^ 64 ∧
      ∀ c ch x, s.pc.ctx = some c → ch ∈ s.pc.uncaptured → ch.Has x → Covers c.blocks x →
        ¬ (w.1 ≤ x ∧ x < w.1 + w.2)
  | .remoteMd5 reply => s.seen ≤ reply.size
  | .truncate => ∀ c r es same target, s.pc = .truncate c r es same target →
      ∀ x, target ≤ x → x ∉ s.fh.modified ∧ ¬ s.Pending x
  | .adopt => ∀ c r es same faSize, s.pc = .adopt c r es same faSize →
      ∀ x, faSize ≤ x → x ∉ s.fh.modified
  | .write n => ∀ c lv off buf total todo, s.pc = .write c lv off buf total todo →
      ∀ x, off + total ≤ x → x < off + total + n → ¬ s.Pending x
  | _ => True

/-- Writing `b` at offset `i` loses nothing, or the updater will notice before it does. -/
def SafeByte (s : UpdState) (lv i : ℕ) (b : UInt8) : Prop :=
  s.expect i = none ∨ b = s.fh.data.byte i ∨ s.Pending i ∨ lv < s.fh.metadata.localVersion

namespace UpdState

/-- An expected byte of these ranges is pending. -/
def Unnoted (s : UpdState) (blocks : List Span) (chunks : List Chunk) : Prop :=
  ∀ ch ∈ chunks, ∀ i, ch.Has i → Covers blocks i → s.expect i ≠ none → s.Pending i

def Comparing (s : UpdState) (c : UpdCtx) (reply : Md5Reply) (es : List Chunk) : Prop :=
  s.Unnoted c.blocks (es ++ c.rest.flatten) ∧ (∀ e ∈ es, e.offset + e.length ≤ s.seen) ∧ s.seen = reply.size

/-- The version is noted: it has changed if an expected byte of the ranges to do is not pending. -/
def Noting (s : UpdState) (c : UpdCtx) (lv : ℕ) (todo : List (Chunk × Bool)) : Prop :=
  s.Unnoted c.blocks c.rest.flatten ∧ lv ≤ s.fh.metadata.localVersion ∧
    ∀ e ∈ todo, ∀ i, e.1.Has i → Covers c.blocks i → s.expect i ≠ none → s.Pending i ∨ lv < s.fh.metadata.localVersion

/-- The bytes of the buffer that are still to be written from `total` on. -/
def SafeBuffer (s : UpdState) (lv off : ℕ) (buf : List UInt8) (total : ℕ) : Prop :=
  ∀ k b, total ≤ k → buf[k]? = some b → SafeByte s lv (off + k) b

/-- What the updater has found out, for each place where it is. -/
def PcInv (s : UpdState) : UpdPc → Prop
  | .start => s.seen = 0
  | .request c => s.Unnoted c.blocks c.rest.flatten
  | .localSums c r es | .versions c r es .. | .clear c r es .. | .resize c r es .. | .stat c r es _ | .adopt c r es .. =>
    s.Comparing c r es
  | .truncate c r es _ target => s.Comparing c r es ∧ s.seen ≤ target
  | .capture c es _ => s.Unnoted c.blocks (es ++ c.rest.flatten) ∧ ∀ e ∈ es, e.offset + e.length ≤ s.seen
  | .entries c lv todo | .append c lv _ _ todo => s.Noting c lv todo
  | .readBack c lv off _ buf2 todo =>
    s.Noting c lv todo ∧ (c.blocks.drop c.j).takeWhile (·.stop < off) = [] ∧ s.SafeBuffer lv off buf2 0
  | .write c lv off buf total todo => s.Noting c lv todo ∧ s.SafeBuffer lv off buf total
  | .done => True

end UpdState

/-- What holds in every state of a run that keeps out of the gaps. -/
structure UpdInv (s : UpdState) : Prop where
  kept : ∀ i v, s.expect i = some v → i < s.fh.data.size ∧ s.fh.data.byte i = v
  known : ∀ i, s.expect i ≠ none → i ∈ s.fh.modified ∨ s.Pending i ∨ i < s.seen
  version : s.fh.attr.version = s.fh.metadata.localVersion
  pc : s.PcInv s.pc

/-- Every local write before the update is recorded or about to be recorded. -/
structure UpdStart (s : UpdState) : Prop where
  pc : s.pc = .start
  kept : ∀ i v, s.expect i = some v → i < s.fh.data.size ∧ s.fh.data.byte i = v
  known : ∀ i, s.expect i ≠ none → i ∈ s.fh.modified ∨ s.Pending i
  version : s.fh.attr.version = s.fh.metadata.localVersion
  seen : s.seen = 0

variable {s s' : UpdState} {bytes : List UInt8}

theorem updInv_start (h : UpdStart s) : UpdInv s := by
  refine ⟨h.kept, fun i hi => (h.known i hi).imp_right Or.inl, h.version, ?_⟩
  rw [h.pc]
  exact h.seen

theorem UpdInv.at_pc (h : UpdInv s) {pc : UpdPc} (hpc : s.pc = pc) : s.PcInv pc := hpc ▸ h.pc

theorem UpdInv.goto (h : UpdInv s) {pc : UpdPc} (hpc : s.PcInv pc) : UpdInv { s with pc := pc } :=
  ⟨h.kept, h.known, h.version, hpc⟩

theorem UpdInv.clearTree (h : UpdInv s) (version : ℕ) {pc : UpdPc}
    (hpc : { s with fh := s.fh.updateFileClearUpdatedTree1 version }.PcInv pc) :
    UpdInv { s with fh := s.fh.updateFileClearUpdatedTree1 version, pc := pc } :=
  ⟨by simpa using h.kept, fun i hi => (h.known i hi).imp_left fun hm => by simpa using hm,
    s.fh.updateFileClearUpdatedTree1_attr_version version, hpc⟩

theorem UpdState.Noting.sublist {c : UpdCtx} {lv : ℕ} {todo todo' : List (Chunk × Bool)} (h : s.Noting c lv todo)
    (hsub : todo' ⊆ todo) : s.Noting c lv todo' :=
  ⟨h.1, h.2.1, fun e he => h.2.2 e (hsub he)⟩

/-! ## The writers -/

theorem pending_writeBytes {offset i : ℕ} :
    (s.writeBytes offset bytes).Pending i ↔ s.Pending i ∨ offset ≤ i ∧ i < offset + bytes.length := by
  simp only [Pending, writeBytes, mem_append, mem_singleton]
  constructor
  · rintro ⟨w, hw | rfl, hi⟩
    · exact Or.inl ⟨w, hw, hi⟩
    · exact Or.inr hi
  · rintro (⟨w, hw, hi⟩ | hi)
    · exact ⟨w, Or.inl hw, hi⟩
    · exact ⟨_, Or.inr rfl, hi⟩

theorem expect_writeBytes_of_not {offset i : ℕ}
    (h : ¬ (offset ≤ i ∧ i < offset + bytes.length)) :
    (s.writeBytes offset bytes).expect i = s.expect i ∧
      (s.writeBytes offset bytes).fh.data.byte i = s.fh.data.byte i := by
  simp only [writeBytes, localWrite]
  rcases lt_or_ge i offset with hi | hi
  · rw [if_neg (by omega), byte_write_of_lt _ _ hi]
    exact ⟨rfl, rfl⟩
  · rw [if_pos hi, byte_write_of_ge _ _ (by omega), getElem?_eq_none (by omega)]
    exact ⟨rfl, rfl⟩

theorem kept_writeBytes {offset : ℕ} (h : UpdInv s) :
    ∀ i v, (s.writeBytes offset bytes).expect i = some v →
      i < (s.writeBytes offset bytes).fh.data.size ∧ (s.writeBytes offset bytes).fh.data.byte i = v := by
  intro i v hv
  have hsize : s.fh.data.size ≤ (s.writeBytes offset bytes).fh.data.size := by
    simp only [writeBytes, localWrite, write]
    split_ifs
    · exact le_rfl
    · exact le_max_left _ _
  by_cases hin : offset ≤ i ∧ i < offset + bytes.length
  · have hlt : i - offset < bytes.length := by omega
    simp only [writeBytes, if_pos hin.1, getElem?_eq_getElem hlt, Option.some_or,
      Option.some.injEq] at hv
    refine ⟨?_, ?_⟩
    · simp only [writeBytes, localWrite]
      rw [size_write _ _ (by rintro rfl; simp at hlt)]
      omega
    · simp only [writeBytes, localWrite]
      rw [byte_write _ _ 0 hin.1 hin.2, getD_eq_getElem?_getD,
        getElem?_eq_getElem hlt, Option.getD_some, hv]
  · obtain ⟨he, hb⟩ := expect_writeBytes_of_not (s := s) hin
    rw [he] at hv
    obtain ⟨hlt, hbyte⟩ := h.kept i v hv
    exact ⟨by omega, hb.trans hbyte⟩

theorem safeByte_writeBytes {offset lv i : ℕ} {b : UInt8}
    (h : SafeByte s lv i b) : SafeByte (s.writeBytes offset bytes) lv i b := by
  by_cases hin : offset ≤ i ∧ i < offset + bytes.length
  · exact Or.inr (Or.inr (Or.inl (pending_writeBytes.mpr (Or.inr hin))))
  · obtain ⟨he, hb⟩ := expect_writeBytes_of_not (s := s) hin
    rcases h with h | h | h | h
    · exact Or.inl (he.trans h)
    · exact Or.inr (Or.inl (h.trans hb.symm))
    · exact Or.inr (Or.inr (Or.inl (pending_writeBytes.mpr (Or.inl h))))
    · exact Or.inr (Or.inr (Or.inr h))

theorem expect_writeBytes {offset i : ℕ}
    (h : (s.writeBytes offset bytes).expect i ≠ none) :
    (s.writeBytes offset bytes).Pending i ∨ s.expect i ≠ none := by
  by_cases hin : offset ≤ i ∧ i < offset + bytes.length
  · exact Or.inl (pending_writeBytes.mpr (Or.inr hin))
  · rw [(expect_writeBytes_of_not (s := s) hin).1] at h
    exact Or.inr h

/-- What a writer has to leave to the updater. -/
theorem UpdState.PcInv.frame {pc : UpdPc} (h : s.PcInv pc) (hseen : s'.seen = s.seen)
    (hversion : s.fh.metadata.localVersion ≤ s'.fh.metadata.localVersion)
    (hold : ∀ c, pc.ctx = some c → ∀ ch ∈ pc.uncaptured, ∀ i, ch.Has i → Covers c.blocks i →
      (s.expect i ≠ none → s.Pending i) → s'.expect i ≠ none → s'.Pending i)
    (hnoted : ∀ lv ≤ s.fh.metadata.localVersion, ∀ i, (s.expect i ≠ none → s.Pending i ∨ lv < s.fh.metadata.localVersion) →
      s'.expect i ≠ none → s'.Pending i ∨ lv < s'.fh.metadata.localVersion)
    (hsafe : ∀ lv ≤ s.fh.metadata.localVersion, ∀ i b, SafeByte s lv i b → SafeByte s' lv i b) : s'.PcInv pc := by
  have hunnoted : ∀ {c : UpdCtx} {l : List Chunk}, pc.ctx = some c → l ⊆ pc.uncaptured →
      s.Unnoted c.blocks l → s'.Unnoted c.blocks l :=
    fun hc hl hu ch hch i hi hb => hold _ hc ch (hl hch) i hi hb (hu ch hch i hi hb)
  have hnoting : ∀ {c : UpdCtx} {lv : ℕ} {todo : List (Chunk × Bool)}, pc.ctx = some c →
      c.rest.flatten ⊆ pc.uncaptured → s.Noting c lv todo → s'.Noting c lv todo :=
    fun hc hl hn => ⟨hunnoted hc hl hn.1, hn.2.1.trans hversion, fun e he i hi hb =>
      hnoted _ hn.2.1 i (hn.2.2 e he i hi hb)⟩
  have hbuffer : ∀ {lv off : ℕ} {buf : List UInt8} {total : ℕ}, lv ≤ s.fh.metadata.localVersion →
      s.SafeBuffer lv off buf total → s'.SafeBuffer lv off buf total :=
    fun hlv hb k b hk hget => hsafe _ hlv _ b (hb k b hk hget)
  cases pc with
  | start => exact hseen.trans h
  | request c => exact hunnoted rfl (Subset.refl _) h
  | localSums c r es | versions c r es | clear c r es | resize c r es | stat c r es | adopt c r es =>
    exact ⟨hunnoted rfl (Subset.refl _) h.1, hseen ▸ h.2.1, hseen.trans h.2.2⟩
  | truncate c r es same target =>
    exact ⟨⟨hunnoted rfl (Subset.refl _) h.1.1, hseen ▸ h.1.2.1, hseen.trans h.1.2.2⟩, hseen.trans_le h.2⟩
  | capture c es same => exact ⟨hunnoted rfl (Subset.refl _) h.1, hseen ▸ h.2⟩
  | entries c lv todo | append c lv off count todo => exact hnoting rfl (Subset.refl _) h
  | readBack c lv off buf buf2 todo =>
    exact ⟨hnoting rfl (Subset.refl _) h.1, h.2.1, hbuffer h.1.2.1 h.2.2⟩
  | write c lv off buf total todo => exact ⟨hnoting rfl (Subset.refl _) h.1, hbuffer h.1.2.1 h.2⟩
  | done => trivial

theorem updInv_writeBytes {offset : ℕ} (h : UpdInv s) : UpdInv (s.writeBytes offset bytes) := by
  have hpend : ∀ i, s.Pending i → (s.writeBytes offset bytes).Pending i :=
    fun i hi => pending_writeBytes.mpr (Or.inl hi)
  refine ⟨kept_writeBytes h, fun i hi => ?_, h.version, h.pc.frame rfl le_rfl (fun c _ ch _ i _ _ hold hx => ?_)
    (fun lv _ i hold hx => ?_) fun lv _ i b => safeByte_writeBytes⟩
  · rcases expect_writeBytes hi with hp | hx
    · exact Or.inr (Or.inl hp)
    · exact (h.known i hx).imp_right (Or.imp_left (hpend i))
  · rcases expect_writeBytes hx with hp | hx
    · exact hp
    · exact hpend i (hold hx)
  · rcases expect_writeBytes hx with hp | hx
    · exact Or.inl hp
    · exact (hold hx).imp_left (hpend i)

theorem pending_eraseIdx (s' : UpdState) {i : ℕ} {w : ℕ × ℕ} (hw : s.pending[i]? = some w)
    (hs : s'.pending = s.pending.eraseIdx i) {x : ℕ} (hx : s.Pending x) :
    s'.Pending x ∨ w.1 ≤ x ∧ x < w.1 + w.2 := by
  obtain ⟨u, hu, hux⟩ := hx
  obtain ⟨j, hj⟩ := getElem?_of_mem hu
  by_cases hij : j = i
  · rw [hij, hw, Option.some.injEq] at hj
    exact Or.inr (hj ▸ hux)
  · refine Or.inl ⟨u, ?_, hux⟩
    rw [hs, mem_eraseIdx_iff_getElem?]
    exact ⟨j, hij, hj⟩

/-- Recording a write raises the version, which the updater compares with the one it noted. -/
theorem updInv_recordWrite {i : ℕ} (h : UpdInv s)
    (htimely : TimelyEvent s (.recordWrite i)) (hst : s.step (.recordWrite i) = some s') : UpdInv s' := by
  obtain ⟨w, hw, rfl⟩ := Option.map_eq_some_iff.mp hst
  obtain ⟨hover, hgap⟩ := htimely w hw
  have hver : u64 (s.fh.metadata.localVersion + 1) = s.fh.metadata.localVersion + 1 :=
    Nat.mod_eq_of_lt hover
  have hnew := (s.fh.recordWrite_versions w.1 w.2)
  rw [hver] at hnew
  have herase := fun x (hx : s.Pending x) =>
    pending_eraseIdx { s with fh := s.fh.recordWrite w.1 w.2, pending := s.pending.eraseIdx i } hw rfl hx
  have hraised : ∀ lv ≤ s.fh.metadata.localVersion, lv < (s.fh.recordWrite w.1 w.2).metadata.localVersion := by
    intro lv hlv
    rw [hnew.1]
    omega
  refine ⟨h.kept, fun x hx => ?_, hnew.2.trans hnew.1.symm, h.pc.frame rfl (hraised _ le_rfl).le
    (fun c hc ch hch x hx hb hold hex => ?_) (fun lv hlv x _ _ => Or.inr (hraised lv hlv))
    fun lv hlv x b _ => Or.inr (Or.inr (Or.inr (hraised lv hlv)))⟩
  · rcases h.known x hx with hm | hp | hs
    · exact Or.inl (mem_recordWrite_modified.mpr (Or.inl hm))
    · rcases herase x hp with hp | hin
      · exact Or.inr (Or.inl hp)
      · have := s.fh.writtenRange_bounds w.1 w.2
        exact Or.inl (mem_recordWrite_modified.mpr (Or.inr (by omega)))
    · exact Or.inr (Or.inr hs)
  · exact (herase x (hold hex)).resolve_right (hgap c ch x hc hch hx hb)

/-! ## The updater up to the noted version -/

theorem updInv_getBlocks {start stop : ℕ} {junk : ℕ → ℕ} (h : UpdInv s)
    (hst : s.step (.getBlocks start stop junk) = some s') : UpdInv s' := by
  simp only [step] at hst
  split at hst
  · rename_i hpc
    obtain rfl := Option.some.inj hst
    have hseen : s.seen = 0 := h.at_pc hpc
    refine h.goto fun ch _ i _ hb hx => ?_
    -- what is in a block is not modified, so an expected byte there is pending
    rcases h.known i hx with hm | hp | hs
    · exact absurd hm (not_mem_modified_of_blocks hb)
    · exact hp
    · omega
  · simp at hst

theorem entries_has {reply : Md5Reply} {args : List Chunk} {e : Chunk} (he : e ∈ reply.entries args) :
    ∃ c ∈ args, ∀ i, e.Has i → c.Has i := by
  simp only [Md5Reply.entries, mem_filter, mem_map] at he
  obtain ⟨⟨p, hp, rfl⟩, -⟩ := he
  refine ⟨p.1, (of_mem_zip hp).1, fun i hi => ?_⟩
  simp only [Chunk.Has] at hi ⊢
  omega

section
variable (h : UpdInv s)

include h

theorem updInv_remoteMd5 {reply : Md5Reply}
    (htimely : TimelyEvent s (.remoteMd5 reply)) (hst : s.step (.remoteMd5 reply) = some s') : UpdInv s' := by
  have hseen : max s.seen reply.size = reply.size := max_eq_right htimely
  simp only [step] at hst
  split at hst
  · rename_i c hpc
    split at hst
    · obtain rfl := Option.some.inj hst
      exact h.goto trivial
    · rename_i args rest hrest
      have hold : s.Unnoted c.blocks (reply.entries args ++ rest.flatten) := by
        have hall : s.Unnoted c.blocks c.rest.flatten := h.at_pc hpc
        rw [hrest, flatten_cons] at hall
        intro ch hch i hi
        rcases mem_append.mp hch with hch | hch
        · obtain ⟨a, ha, hai⟩ := entries_has hch
          exact hall a (mem_append_left _ ha) i (hai i hi)
        · exact hall ch (mem_append_right _ hch) i hi
      have hknown : ∀ i, s.expect i ≠ none →
          i ∈ s.fh.modified ∨ s.Pending i ∨ i < max s.seen reply.size := fun i hi =>
        (h.known i hi).imp_right (Or.imp_right fun hs => hs.trans_le (le_max_left _ _))
      split_ifs at hst with hsize hnil
      · obtain rfl := Option.some.inj hst
        exact ⟨h.kept, hknown, h.version, fun ch hch => hold ch (mem_append_right _ hch)⟩
      · obtain rfl := Option.some.inj hst
        exact ⟨h.kept, hknown, h.version, hold, fun e he => (hsize e he).trans_eq hseen.symm, hseen⟩
  · simp at hst

theorem updInv_localMd5 {localSize : ℕ} {same : List Bool}
    (hst : s.step (.localMd5 localSize same) = some s') : UpdInv s' := by
  simp only [step] at hst
  split at hst
  · rename_i c reply es hpc
    obtain rfl := Option.some.inj hst
    exact h.goto (h.at_pc hpc :)
  · simp at hst

theorem updInv_versions (hst : s.step .versions = some s') : UpdInv s' := by
  simp only [step] at hst
  split at hst
  · rename_i c reply es localSize same hpc
    split_ifs at hst
    · obtain rfl := Option.some.inj hst
      exact h.goto (h.at_pc hpc :)
    · obtain rfl := Option.some.inj hst
      exact h.goto (h.at_pc hpc :)
  · simp at hst

theorem updInv_clear (hst : s.step .clear = some s') : UpdInv s' := by
  simp only [step] at hst
  split at hst
  · rename_i c reply es localSize same hpc
    obtain rfl := Option.some.inj hst
    exact h.clearTree _ (h.at_pc hpc :)
  · simp at hst

theorem updInv_resize (hst : s.step .resize = some s') : UpdInv s' := by
  simp only [step] at hst
  split at hst
  · rename_i c reply es localSize same hpc
    obtain ⟨hunnoted, hsums, hseen⟩ : s.Comparing c reply es := h.at_pc hpc
    split_ifs at hst
    · obtain rfl := Option.some.inj hst
      exact h.goto ⟨⟨hunnoted, hsums, hseen⟩, hseen.le.trans (le_max_left _ _)⟩
    · obtain rfl := Option.some.inj hst
      exact h.goto ⟨hunnoted, hsums⟩
  · simp at hst

/-- The truncation cuts off nothing that was written: recorded and pending writes lie below the new
size by the guard, and what equal sums took out of the tree lies below the remote size. -/
theorem updInv_truncate (htimely : TimelyEvent s .truncate) (hst : s.step .truncate = some s') : UpdInv s' := by
  simp only [step] at hst
  split at hst
  · rename_i c reply es same target hpc
    obtain rfl := Option.some.inj hst
    obtain ⟨hcompare, htarget⟩ : s.Comparing c reply es ∧ s.seen ≤ target := h.at_pc hpc
    refine ⟨fun i v hv => ?_, h.known, h.version, hcompare⟩
    have hlt : i < target := by
      by_contra hge
      obtain ⟨hm, hp⟩ := htimely c reply es same target hpc i (by omega)
      rcases h.known i (by rw [hv]; simp) with hm' | hp' | hs
      · exact hm hm'
      · exact hp hp'
      · omega
    exact ⟨hlt, by simp [hlt, (h.kept i v hv).2]⟩
  · simp at hst

theorem updInv_stat (hst : s.step .stat = some s') : UpdInv s' := by
  simp only [step] at hst
  split at hst
  · rename_i c reply es same hpc
    obtain rfl := Option.some.inj hst
    exact h.goto (h.at_pc hpc :)
  · simp at hst

theorem updInv_adopt (htimely : TimelyEvent s .adopt) (hst : s.step .adopt = some s') : UpdInv s' := by
  simp only [step] at hst
  split at hst
  · rename_i c reply es same faSize hpc
    obtain rfl := Option.some.inj hst
    obtain ⟨hlv, -, hav⟩ := s.fh.adoptSize_metadata_versions reply.size faSize
    obtain ⟨hunnoted, hsums, -⟩ : s.Comparing c reply es := h.at_pc hpc
    refine ⟨by simpa using h.kept, fun i hi => (h.known i hi).imp_left fun hm => ?_,
      by rw [hlv, hav]; exact h.version, hunnoted, hsums⟩
    rw [adoptSize_modified, IntervalTree.mem_deleteFrom]
    refine ⟨hm, ?_⟩
    by_contra hge
    exact htimely c reply es same faSize hpc i (by omega) hm
  · simp at hst

end

theorem foldl_markSame_spec (l : List Chunk) (fh : InternalFh) :
    (l.foldl markSame fh).data = fh.data ∧
    (l.foldl markSame fh).metadata.localVersion = fh.metadata.localVersion ∧
    (l.foldl markSame fh).attr.version = fh.attr.version ∧
    ∀ i, i ∈ fh.modified → i ∈ (l.foldl markSame fh).modified ∨ ∃ c ∈ l, c.Has i := by
  induction l generalizing fh with
  | nil => exact ⟨rfl, rfl, rfl, fun i hi => Or.inl hi⟩
  | cons c l ih =>
    obtain ⟨hd, hlv, hav, hm⟩ := ih (fh.markSame c)
    obtain ⟨hlv', hav'⟩ := fh.markSame_versions c
    refine ⟨hd.trans (fh.markSame_data c), hlv.trans hlv', hav.trans hav', fun i hi => ?_⟩
    by_cases hci : c.Has i
    · exact Or.inr ⟨c, by simp, hci⟩
    · rcases hm i (mem_markSame_modified.mpr ⟨hi, hci⟩) with h | ⟨c', hc', hi'⟩
      · exact Or.inl h
      · exact Or.inr ⟨c', by simp [hc'], hi'⟩

theorem updInv_capture (h : UpdInv s) (hst : s.step .capture = some s') : UpdInv s' := by
  simp only [step] at hst
  split at hst
  · rename_i c es same hpc
    obtain rfl := Option.some.inj hst
    set todo := es.zip (same ++ replicate es.length false)
    obtain ⟨hd, hlv, hav, hm⟩ := foldl_markSame_spec ((todo.filter (·.2)).map (·.1)) s.fh
    have htodo : ∀ e ∈ todo, e.1 ∈ es := fun e he => (of_mem_zip he).1
    obtain ⟨hunnoted, hsums⟩ : s.Unnoted c.blocks (es ++ c.rest.flatten) ∧ ∀ e ∈ es, e.offset + e.length ≤ s.seen :=
      h.at_pc hpc
    refine ⟨fun i v hv => by simpa only [hd] using h.kept i v hv, fun i hi => ?_,
      by simpa only [hlv, hav] using h.version, fun ch hch => hunnoted ch (mem_append_right _ hch), ?_,
      fun e he i hi hb hx => Or.inl (hunnoted e.1 (mem_append_left _ (htodo e he)) i hi hb hx)⟩
    · rcases h.known i hi with hmod | hp | hs
      · rcases hm i hmod with hmod | ⟨ch, hch, hi'⟩
        · exact Or.inl hmod
        · simp only [mem_map, mem_filter] at hch
          obtain ⟨e, ⟨he, -⟩, rfl⟩ := hch
          have := hsums e.1 (htodo e he)
          have := hi'.2
          exact Or.inr (Or.inr (by simp only; omega))
      · exact Or.inr (Or.inl hp)
      · exact Or.inr (Or.inr hs)
    · simp only [hlv, hav]
      exact h.version.le
  · simp at hst

/-! ## The updater with a noted version -/

section
variable (h : UpdInv s)

include h

theorem updInv_skip (hst : s.step .skip = some s') : UpdInv s' := by
  simp only [step] at hst
  split at hst
  · rename_i c lv hpc
    obtain rfl := Option.some.inj hst
    exact h.goto (h.at_pc hpc :).1
  · rename_i c lv e todo hpc
    obtain rfl := Option.some.inj hst
    exact h.goto (Noting.sublist (h.at_pc hpc) (subset_cons_self _ _))
  · simp at hst

theorem updInv_fetch (hst : s.step (.fetch bytes) = some s') : UpdInv s' := by
  simp only [step] at hst
  split at hst
  · rename_i c lv e todo hpc
    split_ifs at hst with hlen
    have hnoting : s.Noting c lv ((e, false) :: todo) := h.at_pc hpc
    have hrest := hnoting.sublist (subset_cons_self _ _)
    have hread : UpdInv { s with
        pc := .readBack { c with j := advance c.blocks e.offset c.j } lv e.offset bytes [] todo } :=
      h.goto ⟨hrest, takeWhile_drop_advance _ _ _, fun k b _ hb => by simp at hb⟩
    split at hst
    · rename_i x hx
      split_ifs at hst with hin
      · obtain rfl := Option.some.inj hst
        refine h.goto ⟨hrest, fun k b _ hb => ?_⟩
        obtain ⟨hk, -⟩ := List.getElem?_eq_some_iff.mp hb
        by_cases hexp : s.expect (e.offset + k) = none
        · exact Or.inl hexp
        · have hcov : Covers c.blocks (e.offset + k) :=
            ⟨x, mem_of_getElem? hx, by simp only [Span.Has]; omega⟩
          exact Or.inr (Or.inr (hnoting.2.2 (e, false) mem_cons_self _ (by simp only [Chunk.Has]; omega) hcov hexp))
      · obtain rfl := Option.some.inj hst
        exact hread
    · obtain rfl := Option.some.inj hst
      exact hread
  · simp at hst

/-- What was read back from the local file comes first, so completing it by the remote data loses
nothing unless the local file goes on behind it. -/
theorem updInv_finishReadBack {c : UpdCtx} {lv off : ℕ} {buf buf2 : List UInt8}
    {todo : List (Chunk × Bool)} (hpc : s.pc = .readBack c lv off buf buf2 todo)
    (hend : buf2.length < buf.length → s.fh.data.size ≤ off + buf2.length) :
    UpdInv { s with pc := finishReadBack c lv off buf buf2 todo } := by
  obtain ⟨hnoting, hcursor, hbuffer⟩ :
      s.Noting c lv todo ∧ (c.blocks.drop c.j).takeWhile (·.stop < off) = [] ∧ s.SafeBuffer lv off buf2 0 := h.at_pc hpc
  refine h.goto ⟨hnoting, fun k b _ hb => ?_⟩
  have hcopy : copyBlocks c.blocks off c.j buf (buf2 ++ buf.drop buf2.length) =
      buf2 ++ buf.drop buf2.length := by
    simp [copyBlocks, hcursor]
  rw [hcopy] at hb
  rcases lt_or_ge k buf2.length with hk | hk
  · rw [getElem?_append_left hk] at hb
    exact hbuffer k b (Nat.zero_le k) hb
  · obtain ⟨hlen, -⟩ := List.getElem?_eq_some_iff.mp hb
    rw [length_append, length_drop] at hlen
    refine Or.inl (Option.eq_none_iff_forall_not_mem.mpr fun v hv => ?_)
    have hsize := (h.kept (off + k) v hv).1
    have := hend (by omega)
    omega

theorem updInv_readBack {n : ℕ} (hst : s.step (.readBack n) = some s') : UpdInv s' := by
  simp only [step] at hst
  split at hst
  · rename_i c lv off buf buf2 todo hpc
    split_ifs at hst with hmore hver hn hnil
    · obtain rfl := Option.some.inj hst
      exact h.goto trivial
    · obtain rfl := Option.some.inj hst
      refine updInv_finishReadBack h hpc fun _ => ?_
      have hlen := congrArg length hnil
      rw [length_read, length_nil] at hlen
      omega
    · obtain rfl := Option.some.inj hst
      obtain ⟨hnoting, hcursor, hbuffer⟩ :
          s.Noting c lv todo ∧ (c.blocks.drop c.j).takeWhile (·.stop < off) = [] ∧ s.SafeBuffer lv off buf2 0 := h.at_pc hpc
      refine h.goto ⟨hnoting, hcursor, fun k b _ hb => ?_⟩
      rcases lt_or_ge k buf2.length with hk | hk
      · rw [getElem?_append_left hk] at hb
        exact hbuffer k b (Nat.zero_le k) hb
      · -- a byte just read is the byte of the file
        rw [getElem?_append_right hk] at hb
        obtain ⟨hlt, hbyte⟩ := List.getElem?_eq_some_iff.mp hb
        rw [length_read] at hlt
        have hget := s.fh.data.getD_read (off + buf2.length) n (k - buf2.length) 0 (by omega) (by omega)
        rw [getD_eq_getElem?_getD, hb, Option.getD_some] at hget
        refine Or.inr (Or.inl (hget.trans ?_))
        congr 1
        omega
    · obtain rfl := Option.some.inj hst
      exact updInv_finishReadBack h hpc fun hlt => absurd hlt hmore
  · simp at hst

theorem updInv_write {n : ℕ} (htimely : TimelyEvent s (.write n))
    (hst : s.step (.write n) = some s') : UpdInv s' := by
  simp only [step] at hst
  split at hst
  · rename_i c lv off buf total todo hpc
    obtain ⟨hnoting, hsafe⟩ : s.Noting c lv todo ∧ s.SafeBuffer lv off buf total := h.at_pc hpc
    have happend : UpdInv { s with pc := .append c lv off total todo } := h.goto hnoting
    split_ifs at hst with hmore hver hn hzero
    · obtain rfl := Option.some.inj hst
      exact h.goto trivial
    · obtain rfl := Option.some.inj hst
      exact happend
    · obtain rfl := Option.some.inj hst
      rw [not_not] at hver
      have hlen : ((buf.drop total).take n).length = n := by
        rw [length_take, length_drop]
        omega
      refine ⟨fun i v hv => ?_, h.known, h.version, hnoting, fun k b hk hb => ?_⟩
      · obtain ⟨hlt, hbyte⟩ := h.kept i v hv
        simp only [localWrite]
        rw [size_write _ _ (ne_nil_of_length_pos (by omega))]
        refine ⟨lt_max_of_lt_left hlt, ?_⟩
        rcases lt_or_ge i (off + total) with hi | hi
        · rw [byte_write_of_lt _ _ hi, hbyte]
        rcases lt_or_ge i (off + total + n) with hi' | hi'
        · -- the version is the noted one and nothing is pending, so the buffer holds the local byte
          have hget : buf[i - off]? = some (buf.getD (i - off) 0) := by
            rw [getD_eq_getElem?_getD, getElem?_eq_getElem (by omega), Option.getD_some]
          rw [byte_write _ _ 0 hi (by omega), getD_eq_getElem?_getD, getElem?_take,
            if_pos (by omega), getElem?_drop, show total + (i - (off + total)) = i - off by omega,
            ← getD_eq_getElem?_getD, ← hbyte]
          have hoff : off + (i - off) = i := by omega
          rcases hsafe (i - off) _ (by omega) hget with hs | hs | hs | hs
          · rw [hoff] at hs
            exact absurd (hs.symm.trans hv) (by simp)
          · rw [hoff] at hs
            exact hs
          · rw [hoff] at hs
            exact absurd hs (htimely c lv off buf total todo hpc i hi hi')
          · have := h.version
            omega
        · rw [byte_write_of_ge _ _ (by omega), hbyte]
      · have hsame : (s.fh.localWrite (off + total) ((buf.drop total).take n)).data.byte (off + k) =
            s.fh.data.byte (off + k) := byte_write_of_ge _ _ (by omega)
        exact (hsafe k b (by omega) hb).imp_right (Or.imp_left fun hs => hs.trans hsame.symm)
    · obtain rfl := Option.some.inj hst
      exact happend
  · simp at hst

theorem updInv_append (hst : s.step .append = some s') : UpdInv s' := by
  simp only [step] at hst
  split at hst
  · rename_i c lv off count todo hpc
    obtain rfl := Option.some.inj hst
    exact ⟨h.kept, h.known, h.version, (h.at_pc hpc :)⟩
  · simp at hst

theorem updInv_abort {clear : Option ℕ} (hst : s.step (.abort clear) = some s') : UpdInv s' := by
  simp only [step] at hst
  split at hst
  · simp at hst
  · simp at hst
  · obtain rfl := Option.some.inj hst
    cases clear with
    | none => exact h.goto trivial
    | some version => exact h.clearTree version trivial

theorem updInv_step {e : UpdEvent} (htimely : TimelyEvent s e)
    (hst : s.step e = some s') : UpdInv s' := by
  cases e with
  | writeBytes offset bytes =>
    obtain rfl := Option.some.inj hst
    exact updInv_writeBytes h
  | recordWrite i => exact updInv_recordWrite h htimely hst
  | getBlocks start stop junk => exact updInv_getBlocks h hst
  | remoteMd5 reply => exact updInv_remoteMd5 h htimely hst
  | localMd5 localSize same => exact updInv_localMd5 h hst
  | versions => exact updInv_versions h hst
  | clear => exact updInv_clear h hst
  | resize => exact updInv_resize h hst
  | truncate => exact updInv_truncate h htimely hst
  | stat => exact updInv_stat h hst
  | adopt => exact updInv_adopt h htimely hst
  | capture => exact updInv_capture h hst
  | skip => exact updInv_skip h hst
  | fetch bytes => exact updInv_fetch h hst
  | readBack n => exact updInv_readBack h hst
  | write n => exact updInv_write h htimely hst
  | append => exact updInv_append h hst
  | abort clear => exact updInv_abort h hst

end

/-- In every run whose events keep out of the gaps, each byte written by `zfs_write` keeps the value
it was given last. -/
theorem update_keeps_writes {s : UpdState} (h : Runs.Reach step TimelyEvent UpdStart s) {i : ℕ} {v : UInt8}
    (hv : s.expect i = some v) : i < s.fh.data.size ∧ s.fh.data.byte i = v :=
  (h.inv (fun _ hs => updInv_start hs) fun _ _ _ hi hg hst => updInv_step hi hg hst).kept i v hv

def fourMissing : UpdState where
  fh := { synced [0, 0, 0, 0] with updated := .create }
  pending := []
  pc := .start
  expect := fun _ => none
  seen := 0

theorem fourMissing_start : UpdStart fourMissing := by
  refine ⟨rfl, ?_, ?_, rfl, rfl⟩ <;> simp [fourMissing]

/-- The first byte is written before the blocks are listed, so the master's bytes go around it. -/
theorem update_keeps_first_byte :
    ∃ s, Runs.run step fourMissing
      [.writeBytes 0 [9], .recordWrite 0, .getBlocks 0 4 fun _ => 0, .remoteMd5 ⟨4, 1, [3]⟩,
       .localMd5 4 [false], .versions, .resize, .capture, .fetch [5, 5, 5], .write 3] = some s ∧
      s.expect 0 = some 9 ∧ (0 < s.fh.data.size ∧ s.fh.data.byte 0 = 9) ∧ s.fh.data.byte 1 = 5 := by
  refine ⟨_, rfl, rfl, update_keeps_writes ?_ rfl, by decide⟩
  have h : Runs.Reach step TimelyEvent UpdStart fourMissing := .init fourMissing_start
  have h := h.step (e := UpdEvent.writeBytes 0 [9]) trivial rfl
  have h := h.step (e := UpdEvent.recordWrite 0) (fun w hw => ⟨by decide, fun c ch x hc => by cases hc⟩) rfl
  have h := h.step (e := UpdEvent.getBlocks 0 4 fun _ => 0) trivial rfl
  have h := h.step (e := UpdEvent.remoteMd5 ⟨4, 1, [3]⟩) (Nat.zero_le _) rfl
  have h := h.run [.localMd5 4 [false], .versions, .resize, .capture, .fetch [5, 5, 5]]
    ⟨trivial, trivial, trivial, trivial, trivial, trivial⟩ rfl
  refine h.step (e := UpdEvent.write 3) ?_ rfl
  rintro c lv off buf total todo - x - - ⟨w, hw, -⟩
  exact not_mem_nil hw

/-- The first byte is written after the blocks are listed and before the version is noted: the
update ends with the master's byte in its place. -/
theorem update_overwrites_write :
    UpdStart fourMissing ∧ ∃ s, Runs.run step fourMissing
      [.getBlocks 0 4 fun _ => 0, .writeBytes 0 [9], .recordWrite 0, .remoteMd5 ⟨4, 1, [4]⟩,
       .localMd5 4 [false], .versions, .resize, .capture, .fetch [5, 5, 5, 5], .write 4, .write 0, .append,
       .skip, .remoteMd5 ⟨4, 1, []⟩] = some s ∧
      s.pc = .done ∧ s.pending = [] ∧ s.expect 0 = some 9 ∧ s.fh.data.byte 0 = 5 :=
  ⟨fourMissing_start, _, rfl, rfl, by decide, by decide, by decide⟩

end ZFS
