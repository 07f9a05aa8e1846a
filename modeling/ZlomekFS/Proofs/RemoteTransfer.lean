import ZlomekFS.Spec.RemoteTransfer

/-! The transfers are right just where no answer of the master is longer than what was asked for: `remote_read` copies
whatever it is given, and both loops add the length in the answer to their total without a look at what is left. -/

namespace ZFS.Remote
open Protocol Requests Transfers Packets

variable {answers : ℕ → Answer} {offset : UInt64} {count : UInt32}

theorem u64_add_total {a t i : ℕ} (h : t ≤ i) : u64 (u64 (a + t) + (i - t)) = u64 (a + i) := by
  unfold u64
  omega

/-! ## Reading -/

theorem readRound_cases (answers : ℕ → Answer) (offset : UInt64) (total : ℕ) (s : ReadState) :
    (∃ r, (answers s.calls).result decodeReadRes = .error r ∧
      readRound answers offset total s = .stop r { s with calls := s.calls + 1 }) ∨
    ∃ res, (answers s.calls).result decodeReadRes = .ok res ∧
      (readRound answers offset total s =
          .stop ZFS_CHANGED { s.copy offset total res with version := some res.version } ∨
        readRound answers offset total s = .moved res.data.1.length (s.copy offset total res)) := by
  unfold readRound
  cases (answers s.calls).result decodeReadRes with
  | error r => exact Or.inl ⟨r, rfl, rfl⟩
  | ok res =>
    refine Or.inr ⟨res, rfl, ?_⟩
    simp only
    split_ifs
    · exact Or.inl rfl
    · exact Or.inr rfl

def replay (l : List ReadExchange) (mem : ℕ → UInt8) : ℕ → UInt8 :=
  l.foldl (fun mem x => put mem x.total x.res.data.1) mem

theorem replay_congr (l : List ReadExchange) {mem mem' : ℕ → UInt8} {i : ℕ} (h : mem i = mem' i) :
    replay l mem i = replay l mem' i := by
  induction l generalizing mem mem' with
  | nil => exact h
  | cons x l ih =>
    apply ih
    simp only [put]
    split_ifs
    · rfl
    · exact h

/-- Where an answer was copied to, nothing of the old memory is left. -/
theorem replay_eq {l : List ReadExchange} {x : ReadExchange} (hx : x ∈ l) {i : ℕ} (hle : x.total ≤ i)
    (hlt : i < x.total + x.res.data.1.length) (mem mem' : ℕ → UInt8) : replay l mem i = replay l mem' i := by
  induction l generalizing mem mem' with
  | nil => cases hx
  | cons y l ih =>
    rcases List.mem_cons.mp hx with rfl | hx
    · apply replay_congr l
      simp only [put, if_pos (And.intro hle hlt)]
    · exact ih hx _ _

def ReadState.Grows (s s' : ReadState) : Prop :=
  ∃ more, s'.exchanges = s.exchanges ++ more ∧ s'.mem = replay more s.mem

theorem ReadState.Grows.refl (s : ReadState) : s.Grows s := ⟨[], by simp, rfl⟩

theorem ReadState.Grows.trans {a b c : ReadState} (h : a.Grows b) (h' : b.Grows c) : a.Grows c := by
  obtain ⟨l, hl, hmem⟩ := h
  obtain ⟨l', hl', hmem'⟩ := h'
  exact ⟨l ++ l', by rw [hl', hl, List.append_assoc], by rw [hmem', hmem, replay, replay, replay, List.foldl_append]⟩

theorem readRound_grows (answers : ℕ → Answer) (offset : UInt64) (total : ℕ) (s : ReadState) :
    s.Grows (readRound answers offset total s).state := by
  obtain ⟨r, -, h⟩ | ⟨res, -, h | h⟩ := readRound_cases answers offset total s
  · rw [h]
    exact ReadState.Grows.refl s
  all_goals
    rw [h]
    exact ⟨[⟨total, u64 (offset.toNat + total), res⟩], rfl, rfl⟩

def ReadState.view (s : ReadState) : Option UInt64 × ℕ × List ReadExchange := (s.version, s.calls, s.exchanges)

def viewRound (answers : ℕ → Answer) (offset : UInt64) (total : ℕ) (v : Option UInt64 × ℕ × List ReadExchange) :
    Round ℤ (Option UInt64 × ℕ × List ReadExchange) :=
  (readRound answers offset total ⟨fun _ => 0, v.1, v.2.1, v.2.2⟩).map ReadState.view

theorem viewRound_view (answers : ℕ → Answer) (offset : UInt64) (total : ℕ) (s : ReadState) :
    viewRound answers offset total s.view = (readRound answers offset total s).map ReadState.view := by
  unfold viewRound readRound ReadState.view
  simp only
  cases (answers s.calls).result decodeReadRes with
  | error r => rfl
  | ok res =>
    simp only [ReadState.copy]
    by_cases hversion : s.version.any (· ≠ res.version) = true <;> simp only [hversion, if_true] <;> rfl

theorem fullRemoteRead_exchanges {mem mem' : ℕ → UInt8} {version : Option UInt64} {fuel fuel' : ℕ}
    {r r' : Except ℤ ℕ × ReadState} (h : fullRemoteRead answers offset count mem version fuel = some r)
    (h' : fullRemoteRead answers offset count mem' version fuel' = some r') : r.2.exchanges = r'.2.exchanges := by
  have hview {m : ℕ → UInt8} {n n' : ℕ} {e : Except ℤ ℕ × ReadState} (hn : n ≤ n')
      (hrun : fullRemoteRead answers offset count m version n = some e) :
      loop (2 ^ 32) count.toNat (viewRound answers offset) n' 0 (version, 0, []) = some (e.1, e.2.view) := by
    apply loop_mono hn
    have hmap : loop (2 ^ 32) count.toNat (viewRound answers offset) n 0 (version, 0, []) =
        (fullRemoteRead answers offset count m version n).map fun r => (r.1, r.2.view) :=
      loop_map (viewRound_view answers offset) n 0 ⟨m, version, 0, []⟩
    rw [hmap, hrun, Option.map_some]
  have heq := (hview (Nat.le_add_right fuel fuel') h).symm.trans (hview (Nat.le_add_left fuel' fuel) h')
  simp only [Option.some.injEq, Prod.mk.injEq, ReadState.view] at heq
  exact heq.2.2.2

structure Reading (offset : UInt64) (count : UInt32) (mem : ℕ → UInt8) (total : ℕ) (s : ReadState) : Prop where
  beyond : ∀ i, count.toNat ≤ i → s.mem i = mem i
  delivered : ∀ i < total, ∃ x ∈ s.exchanges, ∃ j, x.res.data.1[j]? = some (s.mem i) ∧
    u64 (x.offset + j) = u64 (offset.toNat + i)

theorem Reading.copy {mem : ℕ → UInt8} {total : ℕ} {s : ReadState} (h : Reading offset count mem total s) {res : ReadRes}
    (hfits : total + res.data.1.length ≤ count.toNat) :
    Reading offset count mem (total + res.data.1.length) (s.copy offset total res) := by
  constructor
  case beyond =>
    intro i hi
    have hput : put s.mem total res.data.1 i = s.mem i := if_neg (by omega)
    exact hput.trans (h.beyond i hi)
  case delivered =>
    intro i hi
    by_cases hold : i < total
    · obtain ⟨x, hx, j, hj, hoffset⟩ := h.delivered i hold
      refine ⟨x, List.mem_append_left _ hx, j, ?_, hoffset⟩
      rw [hj]
      exact congrArg some (put_of_lt _ hold).symm
    · have hnew : total ≤ i := Nat.le_of_not_lt hold
      refine ⟨_, List.mem_append_right _ (List.mem_singleton_self _), i - total, ?_, u64_add_total hnew⟩
      have hlen : i - total < res.data.1.length := by omega
      simp [ReadState.copy, put, hnew, hi, hlen]

theorem readsRight_iff (answers : ℕ → Answer) (offset : UInt64) (count : UInt32) (version : Option UInt64) :
    ReadsRight answers offset count version ↔
      ∀ mem fuel, ∀ x ∈ readVisits answers offset count mem version fuel, ReadFits answers count x := by
  constructor
  · intro h mem fuel x hx res hres
    by_contra hlong
    -- the byte behind the block is lost whatever it was
    obtain ⟨fuel0, r0, hrun0, hright0⟩ := h mem
    obtain ⟨fuel1, r1, hrun1, hright1⟩ := h fun i => mem i + 1
    have hx0 := visits_subset hrun0 fuel hx
    have hend {m : ℕ → UInt8} {n : ℕ} {r : Except ℤ ℕ × ReadState}
        (hrun : fullRemoteRead answers offset count m version n = some r) :=
      end_of_visit ReadState.Grows ReadState.Grows.refl ReadState.Grows.trans (readRound_grows answers offset) hrun
    have hreplay {m : ℕ → UInt8} {n : ℕ} {r : Except ℤ ℕ × ReadState}
        (hrun : fullRemoteRead answers offset count m version n = some r) : r.2.mem = replay r.2.exchanges m := by
      obtain ⟨more, hmore, hmem⟩ := (hend hrun).1
      rw [hmem, hmore]
      rfl
    have hmem : ⟨x.1, u64 (offset.toNat + x.1), res⟩ ∈ r0.2.exchanges := by
      obtain ⟨more, hmore, -⟩ := (hend hrun0).2 x hx0
      rw [hmore]
      apply List.mem_append_left
      obtain ⟨r, herror, -⟩ | ⟨res', hres', hround⟩ := readRound_cases answers offset x.1 x.2
      · rw [hres] at herror
        cases herror
      · rw [hres] at hres'
        cases hres'
        obtain hround | hround := hround <;> rw [hround] <;> exact List.mem_append_right _ (List.mem_singleton_self _)
    have hsame : r0.2.mem count.toNat = r1.2.mem count.toNat := by
      rw [hreplay hrun0, hreplay hrun1, ← fullRemoteRead_exchanges hrun0 hrun1]
      apply replay_eq hmem
      · exact (lt_of_mem_visits hx).le
      · exact Nat.lt_of_not_le hlong
    rw [hright0.beyond _ le_rfl, hright1.beyond _ le_rfl] at hsame
    simp at hsame
  · intro hfits mem
    have hstart : Reading offset count mem 0 ⟨mem, version, 0, []⟩ := ⟨fun _ _ => rfl, fun _ hi => absurd hi (Nat.not_lt_zero _)⟩
    obtain ⟨r, hrun, hok, herror⟩ := loop_of_fits (ReadFits answers count) (Reading offset count mem)
      (fun s => ∀ i, count.toNat ≤ i → s.mem i = mem i) count.toNat_lt
      (fun t s len s' hI _ hfit hround => by
        obtain ⟨r, -, h⟩ | ⟨res, hres, h | h⟩ := readRound_cases answers offset t s
        all_goals
          rw [h] at hround
          cases hround
        exact ⟨hfit res hres, hI.copy (hfit res hres)⟩)
      (fun t s code s' hI _ hfit hround => by
        obtain ⟨r, -, h⟩ | ⟨res, hres, h | h⟩ := readRound_cases answers offset t s
        all_goals
          rw [h] at hround
          cases hround
        · exact hI.beyond
        · exact (hI.copy (hfit res hres)).beyond)
      (Nat.zero_le _) hstart (hfits mem)
    refine ⟨_, r, hrun, ?_, fun t ht => (hok t ht).1, fun t ht => (hok t ht).2.delivered⟩
    cases hr : r.1 with
    | ok t => exact (hok t hr).2.beyond
    | error code => exact herror code hr

/-! ## Writing -/

theorem writeRound_cases (answers : ℕ → Answer) (offset : UInt64) (count : UInt32) (buffer : ℕ → UInt8) (total : ℕ)
    (s : WriteState) :
    (∃ r, (answers s.calls).result decodeWriteRes = .error r ∧
      writeRound answers offset count buffer total s = .stop r { s with calls := s.calls + 1 }) ∨
    ∃ res, (answers s.calls).result decodeWriteRes = .ok res ∧ ∃ versionIncrease,
      writeRound answers offset count buffer total s = .moved res.written.toNat
        { s.send offset count buffer total res with versionIncrease := versionIncrease } := by
  unfold writeRound
  cases (answers s.calls).result decodeWriteRes with
  | error r => exact Or.inl ⟨r, rfl, rfl⟩
  | ok res =>
    refine Or.inr ⟨res, rfl, ?_⟩
    simp only
    split_ifs with hwritten
    · exact ⟨s.versionIncrease, by rw [hwritten]; rfl⟩
    · exact ⟨_, rfl⟩

def WriteState.Grows (s s' : WriteState) : Prop := s.exchanges ⊆ s'.exchanges

theorem writeRound_grows (answers : ℕ → Answer) (offset : UInt64) (count : UInt32) (buffer : ℕ → UInt8) (total : ℕ)
    (s : WriteState) : s.Grows (writeRound answers offset count buffer total s).state := by
  obtain ⟨r, -, h⟩ | ⟨res, -, versionIncrease, h⟩ := writeRound_cases answers offset count buffer total s
  · rw [h]
    exact List.Subset.refl _
  · rw [h]
    exact List.subset_append_left _ _

structure Writing (offset : UInt64) (count : UInt32) (buffer : ℕ → UInt8) (total : ℕ) (s : WriteState) : Prop where
  sent : ∀ x ∈ s.exchanges, ∀ j < x.written, ∃ i < count.toNat, x.data[j]? = some (buffer i) ∧
    u64 (x.offset + j) = u64 (offset.toNat + i)
  reported : ∀ i < total, ∃ x ∈ s.exchanges, ∃ j < x.written, x.data[j]? = some (buffer i) ∧
    u64 (x.offset + j) = u64 (offset.toNat + i)

theorem Writing.send {buffer : ℕ → UInt8} {total : ℕ} {s : WriteState} (h : Writing offset count buffer total s)
    {res : WriteRes} (hfits : total + res.written.toNat ≤ count.toNat) (versionIncrease : ℕ) :
    Writing offset count buffer (total + res.written.toNat)
      { s.send offset count buffer total res with versionIncrease := versionIncrease } := by
  have hbyte (j : ℕ) (hj : j < res.written.toNat) :
      (Packets.get buffer total (count.toNat - total))[j]? = some (buffer (total + j)) := by
    have hlt : j < count.toNat - total := by omega
    simp [Packets.get, hlt]
  constructor
  case sent =>
    intro x hx j hj
    rcases List.mem_append.mp hx with hx | hx
    · exact h.sent x hx j hj
    · rw [List.mem_singleton] at hx
      subst hx
      have hlt : j < res.written.toNat := hj
      refine ⟨total + j, by omega, hbyte j hlt, ?_⟩
      simpa using u64_add_total (a := offset.toNat) (Nat.le_add_right total j)
  case reported =>
    intro i hi
    by_cases hold : i < total
    · obtain ⟨x, hx, hsent⟩ := h.reported i hold
      exact ⟨x, List.mem_append_left _ hx, hsent⟩
    · have hnew : total ≤ i := Nat.le_of_not_lt hold
      have hj : i - total < res.written.toNat := by omega
      refine ⟨_, List.mem_append_right _ (List.mem_singleton_self _), i - total, hj, ?_, u64_add_total hnew⟩
      have := hbyte (i - total) hj
      rwa [Nat.add_sub_cancel' hnew] at this

theorem writesRight_iff (answers : ℕ → Answer) (offset : UInt64) (count : UInt32) (buffer : ℕ → UInt8)
    (versionIncrease : ℕ) :
    WritesRight answers offset count buffer versionIncrease ↔
      ∀ fuel, ∀ x ∈ writeVisits answers offset count buffer versionIncrease fuel, WriteFits answers count x := by
  constructor
  · intro h fuel x hx res hres
    obtain ⟨fuel', r, hrun, hright⟩ := h
    have hx := visits_subset hrun fuel hx
    have hlt := lt_of_mem_visits hx
    have hmem : ⟨u64 (offset.toNat + x.1), Packets.get buffer x.1 (count.toNat - x.1), res.written.toNat⟩ ∈
        r.2.exchanges := by
      apply (end_of_visit WriteState.Grows (fun s => List.Subset.refl s.exchanges) List.Subset.trans
        (writeRound_grows answers offset count buffer) hrun).2 x hx
      obtain ⟨r, herror, -⟩ | ⟨res', hres', _, hround⟩ := writeRound_cases answers offset count buffer x.1 x.2
      · rw [hres] at herror
        cases herror
      · rw [hres] at hres'
        cases hres'
        rw [hround]
        exact List.mem_append_right _ (List.mem_singleton_self _)
    by_contra hlong
    -- the last byte that was counted
    obtain ⟨i, -, hbyte, -⟩ := hright.sent _ hmem (count.toNat - x.1) (by simp only; omega)
    simp [Packets.get] at hbyte
  · intro hfits
    have hstart : Writing offset count buffer 0 ⟨versionIncrease, 0, []⟩ :=
      ⟨fun _ hx => absurd hx List.not_mem_nil, fun _ hi => absurd hi (Nat.not_lt_zero _)⟩
    obtain ⟨r, hrun, hok, herror⟩ := loop_of_fits (WriteFits answers count) (Writing offset count buffer)
      (Writing offset count buffer 0) count.toNat_lt
      (fun t s len s' hI _ hfit hround => by
        obtain ⟨r, -, h⟩ | ⟨res, hres, n, h⟩ := writeRound_cases answers offset count buffer t s
        all_goals
          rw [h] at hround
          cases hround
        exact ⟨hfit res hres, hI.send (hfit res hres) n⟩)
      (fun t s code s' hI _ _ hround => by
        obtain ⟨r, -, h⟩ | ⟨res, hres, n, h⟩ := writeRound_cases answers offset count buffer t s
        all_goals
          rw [h] at hround
          cases hround
        exact ⟨hI.sent, fun _ hi => absurd hi (Nat.not_lt_zero _)⟩)
      (Nat.zero_le _) hstart hfits
    refine ⟨_, r, hrun, fun t ht => (hok t ht).1, ?_, fun t ht => (hok t ht).2.reported⟩
    cases hr : r.1 with
    | ok t => exact (hok t hr).2.sent
    | error code => exact (herror code hr).sent

/-- Both transfers are right just where each answer fits what was asked for. -/
theorem fullRemote_iff (answers : ℕ → Answer) (offset : UInt64) (count : UInt32) :
    (∀ version, ReadsRight answers offset count version ↔
      ∀ mem fuel, ∀ x ∈ readVisits answers offset count mem version fuel, ReadFits answers count x) ∧
    ∀ buffer versionIncrease, WritesRight answers offset count buffer versionIncrease ↔
      ∀ fuel, ∀ x ∈ writeVisits answers offset count buffer versionIncrease fuel, WriteFits answers count x :=
  ⟨readsRight_iff answers offset count, writesRight_iff answers offset count⟩

/-- A reply with a value, as `zfs_proc_read` and `zfs_proc_write` of the other node encode it. -/
def Answer.encoded (encode : Coding Unit) : Answer :=
  let dc := (encode ⟨fun _ => 0, 0, ZFS_DC_SIZE, 0⟩).2
  ⟨ZFS_OK, { dc with curPos := 0, maxLength := dc.curLength, curLength := 0 }⟩

/-- One byte is asked for and two are delivered: the byte behind the buffer is overwritten and two bytes are reported.
One byte is sent and five are said to be written. -/
theorem fullRemote_overlong :
    (∃ r, fullRemoteRead (fun _ => Answer.encoded (encodeReadRes ⟨⟨[7, 9], by decide⟩, 1⟩)) 0 1 (fun _ => 0) none 3 =
      some r ∧ r.1 = .ok 2 ∧ r.2.mem 1 = 9) ∧
    ∃ r, fullRemoteWriteDentry (fun _ => Answer.encoded (encodeWriteRes ⟨5, 1⟩)) 0 1 (fun _ => 0) 0 3 = some r ∧
      r.1 = .ok 5 := by
  refine ⟨⟨_, rfl, rfl, ?_⟩, ⟨_, rfl, rfl⟩⟩
  rfl

end ZFS.Remote
