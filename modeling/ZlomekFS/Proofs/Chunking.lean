import ZlomekFS.Spec.Update

/-! The ranges that `update_file_blocks` makes of the blocks, as one list in the order of the
requests. A block is cut into pieces of `ZFS_MAXDATA` bytes; a block that is joined with
the last range makes that range longer and goes on at an offset that depends on an old length. -/

namespace ZFS
open Spans List

def cutAt (offset stop : ℕ) : Chunk := ⟨offset, min (stop - offset) ZFS_MAXDATA⟩

/-- The ranges of `[start, stop)`, none of which is joined with another one. -/
def pieces (start stop : ℕ) : List Chunk :=
  if start < stop then cutAt start stop :: pieces (start + ZFS_MAXDATA) stop else []
termination_by stop - start
decreasing_by simp only [ZFS_MAXDATA]; omega

/-- The test of `Md5Args.joins` on the last range. -/
def Chunk.joins (k : Chunk) (start : ℕ) : Bool :=
  sub64 start k.offset < ZFS_MAXDATA && sub64 (sub64 start k.offset) k.length < ZFS_MODIFIED_BLOCK_SIZE

def lastChunk (start stop : ℕ) : ℕ := start + (stop - start - 1) / ZFS_MAXDATA * ZFS_MAXDATA

theorem Chunk.joins_iff {k : Chunk} {start : ℕ} (h : k.offset + k.length ≤ start) (hs : start < 2 ^ 64) :
    k.joins start = true ↔
      start < k.offset + ZFS_MAXDATA ∧ start < k.offset + k.length + ZFS_MODIFIED_BLOCK_SIZE := by
  unfold Chunk.joins
  rw [sub64_of_le (by omega) hs, sub64_of_le (by omega) (by omega), Bool.and_eq_true, decide_eq_true_eq,
    decide_eq_true_eq]
  omega

/-! ## The pieces of a block -/

variable {start stop : ℕ}

theorem pieces_of_lt (h : start < stop) :
    pieces start stop = cutAt start stop :: pieces (start + ZFS_MAXDATA) stop := by
  rw [pieces, if_pos h]

theorem pieces_of_ge (h : stop ≤ start) : pieces start stop = [] := by
  rw [pieces, if_neg (by omega)]

theorem mem_pieces {k : Chunk} (hk : k ∈ pieces start stop) :
    start ≤ k.offset ∧ k.offset < stop ∧ k = cutAt k.offset stop := by
  induction start using pieces.induct stop with
  | case1 start h ih =>
    rw [pieces_of_lt h, mem_cons] at hk
    rcases hk with rfl | hk
    · exact ⟨le_rfl, h, rfl⟩
    · obtain ⟨hle, hlt, heq⟩ := ih hk
      exact ⟨by omega, hlt, heq⟩
  | case2 start h => simp [pieces_of_ge (not_lt.mp h)] at hk

theorem mem_pieces_stop {k : Chunk} (hk : k ∈ pieces start stop) : k.offset + k.length ≤ stop := by
  obtain ⟨-, hlt, hcut⟩ := mem_pieces hk
  have : k.length ≤ stop - k.offset := by
    rw [hcut]
    exact min_le_left _ _
  omega

theorem pieces_disjoint (start stop : ℕ) :
    (pieces start stop).Pairwise fun k k' => k.offset + k.length ≤ k'.offset := by
  induction start using pieces.induct stop with
  | case1 start h ih =>
    rw [pieces_of_lt h, pairwise_cons]
    refine ⟨fun k hk => ?_, ih⟩
    have := (mem_pieces hk).1
    simp only [cutAt]
    omega
  | case2 start h => simp [pieces_of_ge (not_lt.mp h)]

theorem pieces_sorted (start stop : ℕ) : (pieces start stop).Pairwise (·.offset ≤ ·.offset) :=
  (pieces_disjoint start stop).imp fun h => (Nat.le_add_right ..).trans h

theorem pieces_cover {start stop i : ℕ} (hle : start ≤ i) (hlt : i < stop) : ∃ k ∈ pieces start stop, k.Has i := by
  induction start using pieces.induct stop with
  | case1 start h ih =>
    rw [pieces_of_lt h]
    by_cases hi : i < start + ZFS_MAXDATA
    · exact ⟨_, mem_cons_self, hle, by simp only [cutAt]; omega⟩
    · obtain ⟨k, hk, hki⟩ := ih (by omega)
      exact ⟨k, mem_cons_of_mem _ hk, hki⟩
  | case2 start h => omega

theorem pieces_last (h : start < stop) :
    ∃ l, pieces start stop = l ++ [⟨lastChunk start stop, stop - lastChunk start stop⟩] ∧
      ∀ k ∈ l, k.offset + k.length ≤ lastChunk start stop := by
  induction start using pieces.induct stop with
  | case1 start _ ih =>
    rw [pieces_of_lt h]
    by_cases hmore : start + ZFS_MAXDATA < stop
    · obtain ⟨l, hl, hends⟩ := ih hmore
      have hlast : lastChunk (start + ZFS_MAXDATA) stop = lastChunk start stop := by
        simp only [lastChunk, ZFS_MAXDATA] at hmore ⊢
        omega
      rw [hlast] at hl hends
      refine ⟨cutAt start stop :: l, by rw [hl]; rfl, ?_⟩
      intro k hk
      rcases mem_cons.mp hk with rfl | hk
      · simp only [cutAt, lastChunk, ZFS_MAXDATA] at hmore ⊢
        omega
      · exact hends k hk
    · have hlast : lastChunk start stop = start := by
        simp only [lastChunk, ZFS_MAXDATA] at hmore ⊢
        omega
      refine ⟨[], ?_, by simp⟩
      rw [pieces_of_ge (not_lt.mp hmore), hlast]
      simp only [cutAt, nil_append, cons.injEq, Chunk.mk.injEq, true_and, and_true]
      omega
  | case2 start hge => omega

theorem lastChunk_spec (h : start < stop) :
    start ≤ lastChunk start stop ∧ lastChunk start stop < stop ∧ stop ≤ lastChunk start stop + ZFS_MAXDATA := by
  simp only [lastChunk, ZFS_MAXDATA]
  omega

/-! ## One iteration -/

theorem Md5Args.chunks_succ {args : Md5Args} {n : ℕ} (h : args.count = n + 1) :
    args.chunks = ({ args with count := n } : Md5Args).chunks ++ [⟨args.offset n, args.length n⟩] := by
  simp [Md5Args.chunks, h, range_succ]

theorem Md5Args.chunks_congr {args args' : Md5Args} (hc : args.count = args'.count)
    (h : ∀ i < args.count, args.offset i = args'.offset i ∧ args.length i = args'.length i) :
    args.chunks = args'.chunks := by
  unfold Md5Args.chunks
  rw [← hc]
  refine map_congr_left fun i hi => ?_
  obtain ⟨ho, hl⟩ := h i (mem_range.mp hi)
  rw [ho, hl]

namespace Chunking

def all (c : Chunking) : List Chunk := c.sent.flatten ++ c.args.chunks

/-- The lengths are of type `uint32_t`, and a request is sent only to make room for a range. -/
structure Wf (c : Chunking) : Prop where
  length : ∀ n, c.args.length n < 2 ^ 32
  sent : c.args.count = 0 → c.sent = []

/-- What an iteration does to the list of all ranges. -/
inductive Stepped (c : Chunking) (x : Span) (c' : Chunking) (x' : Span) : Prop
  | join (l : List Chunk) (k : Chunk) (hall : c.all = l ++ [k]) (hjoins : k.joins x.start = true)
    (hall' : c'.all = l ++ [cutAt k.offset x.stop])
    (hx : x' = ⟨u64 (k.offset + c.args.length c.args.count), x.stop⟩)
  | push (hjoins : ∀ l k, c.all = l ++ [k] → k.joins x.start = false)
    (hall' : c'.all = c.all ++ [cutAt x.start x.stop])
    (hx : x' = ⟨x.start + (cutAt x.start x.stop).length, x.stop⟩)

variable {c : Chunking}

theorem all_succ {n : ℕ} (h : c.args.count = n + 1) :
    c.all = (c.sent.flatten ++ ({ c.args with count := n } : Md5Args).chunks) ++
      [⟨c.args.offset n, c.args.length n⟩] := by
  rw [all, Md5Args.chunks_succ h, append_assoc]

theorem all_zero (hwf : c.Wf) (h : c.args.count = 0) : c.all = [] := by
  simp [all, hwf.sent h, Md5Args.chunks, h]

theorem cutAt_length_lt (offset stop : ℕ) : min (stop - offset) ZFS_MAXDATA < 2 ^ 32 := by
  simp only [ZFS_MAXDATA]
  omega

theorem step_join {x : Span} (hwf : c.Wf) (hj : c.args.joins x.start = true) :
    (c.step x).1.Wf ∧ Stepped c x (c.step x).1 (c.step x).2 := by
  obtain ⟨n, hn⟩ : ∃ n, c.args.count = n + 1 := by
    simp only [Md5Args.joins, Bool.and_eq_true, decide_eq_true_eq] at hj
    exact ⟨c.args.count - 1, by omega⟩
  simp only [step, hj, if_true]
  refine ⟨⟨fun i => ?_, fun h => absurd (hn.symm.trans h) n.succ_ne_zero⟩, ?_⟩
  · simp only [Function.update_apply]
    split_ifs
    · exact cutAt_length_lt _ _
    · exact hwf.length i
  · refine .join _ _ (all_succ hn) ?_ ?_ ?_
    · simpa [Md5Args.joins, hn, Chunk.joins] using hj
    · rw [all_succ (n := n) (by exact hn)]
      simp only [hn, Nat.add_sub_cancel, Function.update_self]
      congr 2
      refine Md5Args.chunks_congr rfl fun i hi => ⟨rfl, ?_⟩
      exact Function.update_of_ne (by simp only at hi; omega) _ _
    · simp [hn]

theorem step_push {x : Span} (hwf : c.Wf) (hj : c.args.joins x.start = false) :
    (c.step x).1.Wf ∧ Stepped c x (c.step x).1 (c.step x).2 := by
  have hlast (l : List Chunk) (k : Chunk) (hall : c.all = l ++ [k]) : k.joins x.start = false := by
    rcases Nat.eq_zero_or_eq_succ_pred c.args.count with h | h
    · simp [all_zero hwf h] at hall
    · rw [all_succ h] at hall
      obtain ⟨-, rfl⟩ := append_inj' hall rfl |>.imp_right singleton_inj.mp
      rw [Md5Args.joins, h] at hj
      simpa [Chunk.joins] using hj
  have hpush (args : Md5Args) (sent : List (List Chunk)) (hl : ∀ n, args.length n < 2 ^ 32)
      (hall : c.all = sent.flatten ++ args.chunks) :
      let c' : Chunking := ⟨⟨args.count + 1, Function.update args.offset args.count x.start,
        Function.update args.length args.count (min (x.stop - x.start) ZFS_MAXDATA)⟩, sent⟩
      c'.Wf ∧ c'.all = c.all ++ [cutAt x.start x.stop] := by
    refine ⟨⟨fun i => ?_, fun h => absurd h (Nat.succ_ne_zero _)⟩, ?_⟩
    · simp only [Function.update_apply]
      split_ifs
      · exact cutAt_length_lt _ _
      · exact hl i
    · rw [all_succ (n := args.count) rfl, hall]
      simp only [Function.update_self]
      congr 2
      refine Md5Args.chunks_congr rfl fun i hi => ⟨?_, ?_⟩ <;>
        exact Function.update_of_ne (by simp only at hi; omega) _ _
  simp only [step, hj, Bool.false_eq_true, if_false]
  split_ifs with hfull
  · obtain ⟨h, hall⟩ := hpush { c.args with count := 0 } (c.sent ++ [c.args.chunks]) hwf.length
      (by simp [all, Md5Args.chunks])
    exact ⟨h, .push hlast hall rfl⟩
  · obtain ⟨h, hall⟩ := hpush c.args c.sent hwf.length rfl
    exact ⟨h, .push hlast hall rfl⟩

theorem step_spec (hwf : c.Wf) (x : Span) : (c.step x).1.Wf ∧ Stepped c x (c.step x).1 (c.step x).2 := by
  cases hj : c.args.joins x.start with
  | true => exact step_join hwf hj
  | false => exact step_push hwf hj

theorem block_push (fuel : ℕ) {start stop : ℕ} (hwf : c.Wf) (hlt : start < stop) (hstop : stop < 2 ^ 64)
    (hfuel : stop - start ≤ fuel) (hno : ∀ l k, c.all = l ++ [k] → k.joins start = false) :
    blockIn fuel c ⟨start, stop⟩ = some (block fuel c ⟨start, stop⟩) ∧ (block fuel c ⟨start, stop⟩).Wf ∧
      (block fuel c ⟨start, stop⟩).all = c.all ++ pieces start stop := by
  induction fuel generalizing c start with
  | zero => omega
  | succ fuel ih =>
    obtain ⟨hwf', hstep⟩ := step_spec hwf ⟨start, stop⟩
    rw [blockIn, block, pieces_of_lt hlt]
    cases hstep with
    | join l k hall hjoins => exact absurd (hno l k hall) (by simp [hjoins])
    | push _ hall' hx =>
      simp only [hx, cutAt] at hall' ⊢
      split_ifs with hmore
      · -- the piece was a full one, so the next one is not joined with it
        have hfull : min (stop - start) ZFS_MAXDATA = ZFS_MAXDATA := by omega
        rw [hfull] at hmore ⊢
        rw [hfull] at hall'
        have hpos : 0 < ZFS_MAXDATA := by decide
        obtain ⟨hends, h, hall⟩ := ih hwf' hmore (by omega) (fun l k hk => by
          rw [hall'] at hk
          obtain ⟨-, rfl⟩ := append_inj' hk rfl |>.imp_right singleton_inj.mp
          rw [← Bool.not_eq_true, Chunk.joins_iff le_rfl (hmore.trans hstop)]
          exact fun h => lt_irrefl _ h.1)
        rw [hall, hall', append_assoc]
        exact ⟨hends, h, rfl⟩
      · rw [hall', pieces_of_ge (by omega)]
        exact ⟨rfl, hwf', rfl⟩

theorem not_joins_cutAt {offset n stop : ℕ} (hlt : offset + n < stop) (hstop : stop < 2 ^ 64) :
    (cutAt offset stop).joins (offset + n) = false := by
  simp only [Chunk.joins, cutAt, sub64_of_le (Nat.le_add_right offset n) (hlt.trans hstop), Nat.add_sub_cancel_left]
  by_cases hn : n < ZFS_MAXDATA
  · have hlen : n < min (stop - offset) ZFS_MAXDATA := by omega
    rw [sub64_of_lt hlen ((cutAt_length_lt offset stop).trans (by decide))]
    have := cutAt_length_lt offset stop
    have hge : ¬ 2 ^ 64 - (min (stop - offset) ZFS_MAXDATA - n) < ZFS_MODIFIED_BLOCK_SIZE := by
      simp only [ZFS_MODIFIED_BLOCK_SIZE]
      omega
    rw [decide_eq_false hge, Bool.and_false]
  · simp [hn]

end Chunking

/-- How the ranges `all` go on with the given blocks. -/
inductive Chunked : List Chunk → List Span → List Chunk → Prop
  | nil (all : List Chunk) : Chunked all [] all
  | push {all out : List Chunk} {b : Span} {blocks : List Span}
    (hno : ∀ l k, all = l ++ [k] → k.joins b.start = false)
    (h : Chunked (all ++ pieces b.start b.stop) blocks out) : Chunked all (b :: blocks) out
  | join {l out : List Chunk} {k : Chunk} {b : Span} {blocks : List Span} (n : ℕ) (hjoins : k.joins b.start = true)
    (h : Chunked (l ++ cutAt k.offset b.stop :: pieces (k.offset + n) b.stop) blocks out) :
    Chunked (l ++ [k]) (b :: blocks) out

/-- Sorted blocks of offsets that a file can have. -/
structure BlocksOk (blocks : List Span) : Prop where
  lt : ∀ b ∈ blocks, b.start < b.stop
  stop_le : ∀ b ∈ blocks, b.stop ≤ 2 ^ 63
  sorted : blocks.Pairwise (·.stop ≤ ·.start)

namespace Chunking

inductive Blocked (c : Chunking) (b : Span) (c' : Chunking) : Prop
  | push (hno : ∀ l k, c.all = l ++ [k] → k.joins b.start = false) (hall' : c'.all = c.all ++ pieces b.start b.stop)
  | join (l : List Chunk) (k : Chunk) (hall : c.all = l ++ [k]) (hjoins : k.joins b.start = true)
    (hall' : c'.all = l ++ cutAt k.offset b.stop :: pieces (k.offset + c.args.length c.args.count) b.stop)

theorem block_spec {c : Chunking} {b : Span} (hwf : c.Wf) (hlt : b.start < b.stop) (hstop : b.stop ≤ 2 ^ 63)
    (hoff : ∀ k ∈ c.all, k.offset ≤ 2 ^ 63) :
    blockIn (b.stop + 2) c b = some (block (b.stop + 2) c b) ∧ (block (b.stop + 2) c b).Wf ∧
      Blocked c b (block (b.stop + 2) c b) := by
  obtain ⟨hwf', hstep⟩ := step_spec hwf b
  cases hstep with
  | push hno =>
    obtain ⟨hends, h, hall⟩ := block_push (b.stop + 2) hwf hlt (by omega) (by omega) hno
    exact ⟨hends, h, .push hno hall⟩
  | join l k hall hjoins hall' hx =>
    have hu : u64 (k.offset + c.args.length c.args.count) = k.offset + c.args.length c.args.count := by
      have := hoff k (by simp [hall])
      have := hwf.length c.args.count
      exact Nat.mod_eq_of_lt (by omega)
    rw [hu] at hx
    rw [blockIn, block]
    simp only [hx]
    split_ifs with hmore
    · obtain ⟨hends, h, hblock⟩ := block_push (b.stop + 1) hwf' hmore (by omega) (by omega) (fun l' k' hk => by
        rw [hall'] at hk
        obtain ⟨-, rfl⟩ := append_inj' hk rfl |>.imp_right singleton_inj.mp
        exact not_joins_cutAt hmore (by omega))
      rw [hall', append_assoc] at hblock
      exact ⟨hends, h, .join l k hall hjoins hblock⟩
    · refine ⟨rfl, hwf', .join l k hall hjoins ?_⟩
      rw [hall', pieces_of_ge (not_lt.mp hmore)]

theorem Blocked.offset_le {c c' : Chunking} {b : Span} (h : Blocked c b c') (hstop : b.stop ≤ 2 ^ 63)
    (hoff : ∀ k ∈ c.all, k.offset ≤ 2 ^ 63) : ∀ k ∈ c'.all, k.offset ≤ 2 ^ 63 := by
  have hpiece (start : ℕ) (k : Chunk) (hk : k ∈ pieces start b.stop) : k.offset ≤ 2 ^ 63 :=
    (mem_pieces hk).2.1.le.trans hstop
  intro k hk
  cases h with
  | push _ hall' =>
    rw [hall', mem_append] at hk
    exact hk.elim (hoff k) (hpiece _ k)
  | join l k' hall _ hall' =>
    rw [hall', mem_append, mem_cons] at hk
    rcases hk with hk | rfl | hk
    · exact hoff k (by simp [hall, hk])
    · exact hoff k' (by simp [hall])
    · exact hpiece _ k hk

theorem foldl_chunked {c : Chunking} {blocks : List Span} (hwf : c.Wf) (hlt : ∀ b ∈ blocks, b.start < b.stop)
    (hstop : ∀ b ∈ blocks, b.stop ≤ 2 ^ 63) (hoff : ∀ k ∈ c.all, k.offset ≤ 2 ^ 63) :
    blocks.foldlM (fun c x => blockIn (x.stop + 2) c x) c =
        some (blocks.foldl (fun c x => block (x.stop + 2) c x) c) ∧
      (blocks.foldl (fun c x => block (x.stop + 2) c x) c).Wf ∧
      Chunked c.all blocks (blocks.foldl (fun c x => block (x.stop + 2) c x) c).all := by
  induction blocks generalizing c with
  | nil => exact ⟨rfl, hwf, .nil _⟩
  | cons b blocks ih =>
    have hb := hstop b mem_cons_self
    obtain ⟨hends, hwf', hblock⟩ := block_spec hwf (hlt b mem_cons_self) hb hoff
    obtain ⟨hrun, h, hrest⟩ := ih hwf' (fun x hx => hlt x (mem_cons_of_mem _ hx))
      (fun x hx => hstop x (mem_cons_of_mem _ hx)) (hblock.offset_le hb hoff)
    rw [foldlM_cons, foldl_cons, hends]
    refine ⟨hrun, h, ?_⟩
    cases hblock with
    | push hno hall' =>
      rw [hall'] at hrest
      exact .push hno hrest
    | join l k hall hjoins hall' =>
      rw [hall'] at hrest
      rw [hall]
      exact .join _ hjoins hrest

end Chunking

theorem chunkBatches_chunked {junk : ℕ → ℕ} {blocks : List Span} (hjunk : ∀ n, junk n < 2 ^ 32)
    (h : BlocksOk blocks) : Chunked [] blocks (chunkBatches junk blocks).flatten := by
  obtain ⟨-, hwf, hch⟩ := Chunking.foldl_chunked (c := ⟨⟨0, junk, junk⟩, []⟩) ⟨hjunk, fun _ => rfl⟩ h.lt h.stop_le
    (by simp [Chunking.all, Md5Args.chunks])
  unfold chunkBatches
  simp only
  split_ifs with hcount
  · rw [flatten_append, flatten_singleton]
    exact hch
  · rw [Chunking.all_zero hwf (by omega)] at hch
    rw [hwf.sent (by omega)]
    exact hch

/-! ## The whole list -/

/-- What holds of the ranges before the given blocks. -/
structure Ahead (all : List Chunk) (blocks : List Span) : Prop where
  length : ∀ k ∈ all, k.length ≤ ZFS_MAXDATA
  sorted : all.Pairwise (·.offset ≤ ·.offset)
  offset : ∀ k ∈ all, ∀ b ∈ blocks, k.offset ≤ b.start

theorem cutAt_length_le (offset stop : ℕ) : (cutAt offset stop).length ≤ ZFS_MAXDATA := min_le_right _ _

theorem Ahead.push {all : List Chunk} {b : Span} {blocks : List Span} (h : Ahead all (b :: blocks))
    (hb : ∀ x ∈ blocks, b.stop ≤ x.start) : Ahead (all ++ pieces b.start b.stop) blocks := by
  refine ⟨?_, ?_, ?_⟩
  · intro k hk
    rcases mem_append.mp hk with hk | hk
    · exact h.length k hk
    · rw [(mem_pieces hk).2.2]
      exact cutAt_length_le _ _
  · rw [pairwise_append]
    refine ⟨h.sorted, pieces_sorted _ _, fun k hk k' hk' => ?_⟩
    exact (h.offset k hk b mem_cons_self).trans (mem_pieces hk').1
  · intro k hk x hx
    rcases mem_append.mp hk with hk | hk
    · exact h.offset k hk x (mem_cons_of_mem _ hx)
    · exact (mem_pieces hk).2.1.le.trans (hb x hx)

theorem Ahead.join {l : List Chunk} {k : Chunk} {b : Span} {blocks : List Span} (n : ℕ)
    (h : Ahead (l ++ [k]) (b :: blocks)) (hb : ∀ x ∈ blocks, b.stop ≤ x.start) :
    Ahead (l ++ cutAt k.offset b.stop :: pieces (k.offset + n) b.stop) blocks := by
  obtain ⟨hl, -, hlk⟩ := pairwise_append.mp h.sorted
  refine ⟨?_, ?_, ?_⟩
  · intro k' hk
    rw [mem_append, mem_cons] at hk
    rcases hk with hk | rfl | hk
    · exact h.length k' (by simp [hk])
    · exact cutAt_length_le _ _
    · rw [(mem_pieces hk).2.2]
      exact cutAt_length_le _ _
  · rw [pairwise_append, pairwise_cons]
    refine ⟨hl, ⟨fun k' hk => ?_, pieces_sorted _ _⟩, fun k1 h1 k2 h2 => ?_⟩
    · exact (Nat.le_add_right _ n).trans (mem_pieces hk).1
    · have hle := hlk k1 h1 k (by simp)
      rcases mem_cons.mp h2 with rfl | h2
      · exact hle
      · exact hle.trans ((Nat.le_add_right _ n).trans (mem_pieces h2).1)
  · intro k' hk x hx
    rw [mem_append, mem_cons] at hk
    rcases hk with hk | rfl | hk
    · exact h.offset k' (by simp [hk]) x (mem_cons_of_mem _ hx)
    · exact h.offset k (by simp) x (mem_cons_of_mem _ hx)
    · exact (mem_pieces hk).2.1.le.trans (hb x hx)

theorem Chunked.ahead {all out : List Chunk} {blocks : List Span} (h : Chunked all blocks out)
    (hs : blocks.Pairwise (·.stop ≤ ·.start)) (ha : Ahead all blocks) : Ahead out [] := by
  induction h with
  | nil all => exact ha
  | push _ _ ih =>
    obtain ⟨hb, hs⟩ := pairwise_cons.mp hs
    exact ih hs (ha.push hb)
  | join n _ _ ih =>
    obtain ⟨hb, hs⟩ := pairwise_cons.mp hs
    exact ih hs (ha.join n hb)

end ZFS
