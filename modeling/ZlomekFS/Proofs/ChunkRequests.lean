import ZlomekFS.Proofs.Chunking

/-! The md5 requests of `update_file_blocks`. A block that is joined with the last chunk goes on behind the length in
the slot after that chunk, which holds what the previous request left there, or what was on the stack. The requests are
right just where that length is the one of the joined chunk or reaches behind the block. -/

namespace ZFS
open Spans List

variable {junk : ℕ → ℕ} {blocks : List Span}

theorem chunkRequests_eq (hjunk : ∀ n, junk n < 2 ^ 32) (h : BlocksOk blocks) :
    chunkRequests junk blocks = some (chunkBatches junk blocks) := by
  rw [chunkRequests, (Chunking.foldl_chunked ⟨hjunk, fun _ => rfl⟩ h.lt h.stop_le (by simp [Chunking.all, Md5Args.chunks])).1]
  rfl

namespace Chunking

/-! ## What the slots after the last chunk hold -/

/-- The length in a slot that the current request has not filled. -/
def oldLength (junk : ℕ → ℕ) (sent : List (List Chunk)) (i : ℕ) : ℕ :=
  ((sent.getLast?.bind (·[i]?)).map Chunk.length).getD (junk i)

structure Slots (junk : ℕ → ℕ) (c : Chunking) : Prop where
  full : ∀ r ∈ c.sent, r.length = ZFS_MAX_MD5_CHUNKS
  count : c.args.count ≤ ZFS_MAX_MD5_CHUNKS
  old : ∀ i, c.args.count ≤ i → c.args.length i = oldLength junk c.sent i

theorem Slots.step {junk : ℕ → ℕ} {c : Chunking} (h : c.Slots junk) (x : Span) : (c.step x).1.Slots junk := by
  unfold Chunking.step
  by_cases hj : c.args.joins x.start = true
  · have hpos : 0 < c.args.count := by
      simp only [Md5Args.joins, Bool.and_eq_true, decide_eq_true_eq] at hj
      exact hj.1.1
    simp only [hj, if_true]
    refine ⟨h.full, h.count, fun i hi => ?_⟩
    simp only at hi ⊢
    rw [Function.update_of_ne (by omega)]
    exact h.old i hi
  · simp only [hj, Bool.false_eq_true, if_false]
    by_cases hfull : c.args.count = ZFS_MAX_MD5_CHUNKS
    · -- the slots keep the chunks of the request that is sent
      have hlen : c.args.chunks.length = ZFS_MAX_MD5_CHUNKS := by simp [Md5Args.chunks, hfull]
      simp only [hfull, if_true]
      refine ⟨fun r hr => ?_, show 1 ≤ ZFS_MAX_MD5_CHUNKS by decide, fun i hi => ?_⟩
      · rcases mem_append.mp hr with hr | hr
        · exact h.full r hr
        · rw [mem_singleton.mp hr]
          exact hlen
      · simp only at hi ⊢
        rw [Function.update_of_ne (by omega), oldLength, getLast?_concat, Option.bind_some]
        by_cases hlt : i < ZFS_MAX_MD5_CHUNKS
        · simp [Md5Args.chunks, hfull, hlt]
        · rw [getElem?_eq_none (by omega), h.old i (by omega), oldLength]
          cases hlast : c.sent.getLast? with
          | none => rfl
          | some r =>
            have := h.full r (mem_of_getLast? hlast)
            rw [Option.bind_some, getElem?_eq_none (by omega)]
    · simp only [hfull, if_false]
      have hcount := h.count
      refine ⟨h.full, by simp only; omega, fun i hi => ?_⟩
      simp only at hi ⊢
      rw [Function.update_of_ne (by omega)]
      exact h.old i (by omega)

theorem Slots.block {junk : ℕ → ℕ} {c : Chunking} (h : c.Slots junk) (fuel : ℕ) (x : Span) :
    (Chunking.block fuel c x).Slots junk := by
  induction fuel generalizing c x with
  | zero => exact h
  | succ fuel ih =>
    rw [Chunking.block]
    simp only
    split_ifs
    · exact ih (h.step x) _
    · exact h.step x

theorem Slots.length_all {junk : ℕ → ℕ} {c : Chunking} (h : c.Slots junk) :
    c.all.length = ZFS_MAX_MD5_CHUNKS * c.sent.length + c.args.count := by
  have hflat : c.sent.flatten.length = ZFS_MAX_MD5_CHUNKS * c.sent.length := by
    rw [length_flatten, map_congr_left h.full, map_const', sum_replicate, smul_eq_mul, mul_comm]
  rw [all, length_append, hflat]
  simp [Md5Args.chunks]

end Chunking

/-- The chunk of the previous request whose length is in the slot after the last of the chunks. -/
def stale (all : List Chunk) : Option Chunk :=
  if ZFS_MAX_MD5_CHUNKS < all.length ∧ all.length % ZFS_MAX_MD5_CHUNKS ≠ 0 then all[all.length - ZFS_MAX_MD5_CHUNKS]?
  else none

theorem mem_of_stale {all : List Chunk} {old : Chunk} (h : old ∈ stale all) : old ∈ all := by
  unfold stale at h
  split_ifs at h
  · exact mem_of_getElem? h
  · cases h

theorem Chunking.Slots.next {c : Chunking} (h : c.Slots junk) (hpos : 0 < c.args.count) :
    c.args.length c.args.count = ((stale c.all).map Chunk.length).getD (junk c.args.count) := by
  have hcount := h.count
  have hlen := h.length_all
  rw [h.old _ le_rfl, oldLength]
  congr 2
  rcases eq_nil_or_concat c.sent with hnil | ⟨init, last, hsent⟩
  · rw [hnil, length_nil] at hlen
    rw [hnil, stale, if_neg (by omega)]
    rfl
  · rw [concat_eq_append] at hsent
    have hlast : last.length = ZFS_MAX_MD5_CHUNKS := h.full last (by simp [hsent])
    have hinit : init.flatten.length = ZFS_MAX_MD5_CHUNKS * init.length := by
      rw [length_flatten, map_congr_left fun r hr => h.full r (by simp [hsent, hr]), map_const',
        sum_replicate, smul_eq_mul, mul_comm]
    have hall : c.all = init.flatten ++ (last ++ c.args.chunks) := by simp [all, hsent]
    rw [hsent, length_append, length_singleton, Nat.mul_add, Nat.mul_one] at hlen
    rw [hsent, getLast?_concat, Option.bind_some, stale]
    have hpos' : 0 < ZFS_MAX_MD5_CHUNKS := by decide
    by_cases hfull : c.args.count = ZFS_MAX_MD5_CHUNKS
    · rw [if_neg, getElem?_eq_none (by omega)]
      rw [hlen, hfull]
      simp
    · have hmod : c.all.length % ZFS_MAX_MD5_CHUNKS = c.args.count := by
        rw [hlen, ← Nat.mul_succ, Nat.mul_add_mod, Nat.mod_eq_of_lt (by omega)]
      have hidx : c.all.length - ZFS_MAX_MD5_CHUNKS = init.flatten.length + c.args.count := by omega
      rw [if_pos (by omega), hidx, hall, getElem?_append_right (by omega), Nat.add_sub_cancel_left,
        getElem?_append_left (by omega)]

theorem Chunking.block_join {c : Chunking} {b : Span} (hwf : c.Wf) (h : c.Slots junk) (hlt : b.start < b.stop)
    (hstop : b.stop ≤ 2 ^ 63) (hoff : ∀ k ∈ c.all, k.offset ≤ 2 ^ 63) {l : List Chunk} {k : Chunk}
    (hall : c.all = l ++ [k]) (hjoins : k.joins b.start = true) :
    (block (b.stop + 2) c b).all = l ++ cutAt k.offset b.stop ::
      pieces (k.offset + ((stale c.all).map Chunk.length).getD (junk c.args.count)) b.stop := by
  have hpos : 0 < c.args.count := by
    by_contra hzero
    simp [all_zero hwf (Nat.eq_zero_of_not_pos hzero)] at hall
  obtain ⟨-, -, hblock⟩ := block_spec hwf hlt hstop hoff
  rw [← h.next hpos]
  cases hblock with
  | push hno => exact absurd (hno l k hall) (by simp [hjoins])
  | join l' k' heq _ hall' =>
    rw [hall] at heq
    obtain ⟨rfl, rfl⟩ := append_inj' heq rfl |>.imp_right singleton_inj.mp
    exact hall'

/-! ## The requests as they shall be -/

/-- A byte between two neighbouring blocks that are not far from each other. -/
def InShortGap (blocks : List Span) (i : ℕ) : Prop :=
  ∃ pre a b post, blocks = pre ++ a :: b :: post ∧ a.stop ≤ i ∧ i < b.start ∧
    b.start - a.stop < ZFS_MODIFIED_BLOCK_SIZE

structure Tiled (blocks : List Span) (all : List Chunk) : Prop where
  pos : ∀ k ∈ all, 0 < k.length
  max : ∀ k ∈ all, k.length ≤ ZFS_MAXDATA
  sorted : all.Pairwise fun k k' => k.offset + k.length ≤ k'.offset
  covers : ∀ i, Covers blocks i → ∃ k ∈ all, k.Has i
  inside : ∀ k ∈ all, ∀ i, k.Has i → Covers blocks i ∨ InShortGap blocks i

/-- What one block adds where it is joined with the last chunk properly. -/
def tileStep (all : List Chunk) (b : Span) : List Chunk :=
  match all.getLast? with
  | some k => if k.joins b.start then all.dropLast ++ pieces k.offset b.stop else all ++ pieces b.start b.stop
  | none => pieces b.start b.stop

/-- A block is joined with the last of the chunks only where the length in the slot after it, left by the previous
request, is that of a full chunk or reaches to the end of the block. -/
def JoinsFit : List Chunk → List Span → Prop
  | _, [] => True
  | all, b :: blocks => (∀ k ∈ all.getLast?, k.joins b.start = true →
      ∃ old ∈ stale all, old.length = ZFS_MAXDATA ∨ b.stop ≤ k.offset + old.length) ∧
      JoinsFit (tileStep all b) blocks

theorem pieces_pos {start stop : ℕ} {k : Chunk} (hk : k ∈ pieces start stop) :
    0 < k.length ∧ k.length ≤ ZFS_MAXDATA := by
  obtain ⟨-, hlt, hcut⟩ := mem_pieces hk
  have hlen : k.length = min (stop - k.offset) ZFS_MAXDATA := congrArg Chunk.length hcut
  have hpos : 0 < ZFS_MAXDATA := by decide
  rw [hlen]
  exact ⟨by omega, min_le_right _ _⟩

theorem InShortGap.append {i : ℕ} (h : InShortGap blocks i) (b : Span) : InShortGap (blocks ++ [b]) i := by
  obtain ⟨pre, a, a', post, rfl, hgap⟩ := h
  exact ⟨pre, a, a', post ++ [b], by simp, hgap⟩

/-- The chunks of the blocks `done`; the last one ends with the last block. -/
structure TiledUpTo (done : List Span) (all : List Chunk) : Prop extends Tiled done all where
  ends : ∀ l k, all = l ++ [k] → ∃ pre a, done = pre ++ [a] ∧ k.offset + k.length = a.stop
  stops : ∀ k ∈ all, ∀ x, (∀ a ∈ done, a.stop ≤ x) → k.offset + k.length ≤ x

/-- The block `b` is cut from `offset` on, behind the chunks `l` that stay. -/
theorem TiledUpTo.extend {done : List Span} {all l : List Chunk} {b : Span} {offset : ℕ} (h : TiledUpTo done all)
    (hsub : l.Sublist all) (hend : ∀ k ∈ l, k.offset + k.length ≤ offset) (hlt : offset < b.stop)
    (hcovers : ∀ i, Covers (done ++ [b]) i → (∃ k ∈ l, k.Has i) ∨ offset ≤ i ∧ i < b.stop)
    (hinside : ∀ i, offset ≤ i → i < b.stop → Covers (done ++ [b]) i ∨ InShortGap (done ++ [b]) i) :
    TiledUpTo (done ++ [b]) (l ++ pieces offset b.stop) := by
  have hmem : ∀ {k}, k ∈ l ++ pieces offset b.stop → k ∈ all ∨ k ∈ pieces offset b.stop := fun hk =>
    (mem_append.mp hk).imp_left fun hk => hsub.subset hk
  refine ⟨⟨?pos, ?max, ?sorted, ?covers, ?inside⟩, ?ends, ?stops⟩
  case pos =>
    intro k hk
    rcases hmem hk with hk | hk
    · exact h.pos k hk
    · exact (pieces_pos hk).1
  case max =>
    intro k hk
    rcases hmem hk with hk | hk
    · exact h.max k hk
    · exact (pieces_pos hk).2
  case sorted =>
    refine pairwise_append.mpr ⟨h.sorted.sublist hsub, pieces_disjoint _ _, fun k hk k' hk' => ?_⟩
    exact (hend k hk).trans (mem_pieces hk').1
  case covers =>
    intro i hi
    rcases hcovers i hi with ⟨k, hk, hki⟩ | hi
    · exact ⟨k, mem_append_left _ hk, hki⟩
    · obtain ⟨k, hk, hki⟩ := pieces_cover hi.1 hi.2
      exact ⟨k, mem_append_right _ hk, hki⟩
  case inside =>
    intro k hk i hki
    rcases hmem hk with hk | hk
    · rcases h.inside k hk i hki with hi | hi
      · exact Or.inl ((covers_append ..).mpr (Or.inl hi))
      · exact Or.inr (hi.append b)
    · have hstart := (mem_pieces hk).1
      have hstop := mem_pieces_stop hk
      simp only [Chunk.Has] at hki
      exact hinside i (by omega) (by omega)
  case ends =>
    intro l' k hall
    obtain ⟨l'', hl'', -⟩ := pieces_last hlt
    rw [hl'', ← append_assoc] at hall
    obtain ⟨-, rfl⟩ := append_inj' hall rfl |>.imp_right singleton_inj.mp
    have := (lastChunk_spec hlt).2.1
    exact ⟨done, b, rfl, by simp only; omega⟩
  case stops =>
    intro k hk x hx
    rcases hmem hk with hk | hk
    · exact h.stops k hk x fun a ha => hx a (by simp [ha])
    · exact (mem_pieces_stop hk).trans (hx b (by simp))

theorem TiledUpTo.push {done : List Span} {all : List Chunk} {b : Span} (h : TiledUpTo done all)
    (hlt : b.start < b.stop) (hle : ∀ a ∈ done, a.stop ≤ b.start) :
    TiledUpTo (done ++ [b]) (all ++ pieces b.start b.stop) := by
  refine h.extend (Sublist.refl _) (fun k hk => h.stops k hk b.start hle) hlt (fun i hi => ?_)
    fun i hi hi' => Or.inl ⟨b, by simp, hi, hi'⟩
  rcases (covers_append ..).mp hi with hi | ⟨x, hx, hix⟩
  · exact Or.inl (h.covers i hi)
  · exact Or.inr (mem_singleton.mp hx ▸ hix)

theorem TiledUpTo.join {done : List Span} {l : List Chunk} {k : Chunk} {b : Span} (h : TiledUpTo done (l ++ [k]))
    (hlt : b.start < b.stop) (hstop : b.stop ≤ 2 ^ 63) (hle : ∀ a ∈ done, a.stop ≤ b.start)
    (hjoins : k.joins b.start = true) : TiledUpTo (done ++ [b]) (l ++ pieces k.offset b.stop) := by
  obtain ⟨pre, a, rfl, hend⟩ := h.ends l k rfl
  have hab := hle a (by simp)
  have hkpos := h.pos k (by simp)
  obtain ⟨-, hnear⟩ := (Chunk.joins_iff (by omega) (by omega)).mp hjoins
  obtain ⟨-, -, hlk⟩ := pairwise_append.mp h.sorted
  refine h.extend (sublist_append_left l [k]) (fun k1 h1 => hlk k1 h1 k (by simp)) (by omega) (fun i hi => ?_)
    fun i hi hi' => ?_
  · rcases (covers_append ..).mp hi with hi | ⟨x, hx, hix⟩
    · obtain ⟨k', hk', hki⟩ := h.covers i hi
      rcases mem_append.mp hk' with hk' | hk'
      · exact Or.inl ⟨k', hk', hki⟩
      · rw [mem_singleton.mp hk'] at hki
        simp only [Chunk.Has] at hki
        omega
    · rw [mem_singleton.mp hx] at hix
      simp only [Span.Has] at hix
      omega
  · -- the byte is in the old part of the chunk, in the gap or in the new block
    by_cases hold : i < k.offset + k.length
    · rcases h.inside k (by simp) i ⟨hi, hold⟩ with hi | hi
      · exact Or.inl ((covers_append ..).mpr (Or.inl hi))
      · exact Or.inr (hi.append b)
    · by_cases hgap : i < b.start
      · exact Or.inr ⟨pre, a, b, [], by simp, by omega, hgap, by omega⟩
      · exact Or.inl ⟨b, by simp, by omega, by omega⟩

theorem BlocksOk.stop_le_start {done blocks : List Span} {b : Span} (h : BlocksOk (done ++ b :: blocks)) :
    ∀ a ∈ done, a.stop ≤ b.start :=
  fun a ha => (pairwise_append.mp h.sorted).2.2 a ha b mem_cons_self

theorem TiledUpTo.step {done : List Span} {all : List Chunk} {b : Span} (h : TiledUpTo done all)
    (hlt : b.start < b.stop) (hstop : b.stop ≤ 2 ^ 63) (hle : ∀ a ∈ done, a.stop ≤ b.start) :
    TiledUpTo (done ++ [b]) (tileStep all b) := by
  rcases eq_nil_or_concat all with rfl | ⟨l, k, rfl⟩
  · exact h.push hlt hle
  · rw [concat_eq_append] at h ⊢
    rw [tileStep, getLast?_concat, dropLast_concat]
    simp only
    split_ifs with hjoins
    · exact h.join hlt hstop hle hjoins
    · exact h.push hlt hle

/-! ## Where the slots are right, and where they are not -/

namespace Chunking

structure Running (junk : ℕ → ℕ) (c : Chunking) : Prop where
  wf : c.Wf
  slots : c.Slots junk
  offset : ∀ k ∈ c.all, k.offset ≤ 2 ^ 63

theorem Running.block {junk : ℕ → ℕ} {c : Chunking} {b : Span} (h : c.Running junk) (hlt : b.start < b.stop)
    (hstop : b.stop ≤ 2 ^ 63) : (Chunking.block (b.stop + 2) c b).Running junk := by
  obtain ⟨-, hwf, hblock⟩ := block_spec h.wf hlt hstop h.offset
  exact ⟨hwf, h.slots.block _ b, hblock.offset_le hstop h.offset⟩

theorem Running.push {junk : ℕ → ℕ} {c : Chunking} {b : Span} (h : c.Running junk) (hlt : b.start < b.stop)
    (hstop : b.stop ≤ 2 ^ 63) (hno : ∀ l k, c.all = l ++ [k] → k.joins b.start = false) :
    (Chunking.block (b.stop + 2) c b).all = tileStep c.all b := by
  obtain ⟨-, -, hall⟩ := block_push (b.stop + 2) h.wf hlt (by omega) (by omega) hno
  rw [hall]
  rcases eq_nil_or_concat c.all with hnil | ⟨l, k, hl⟩
  · rw [hnil]
    rfl
  · rw [concat_eq_append] at hl
    rw [hl, tileStep, getLast?_concat]
    simp [hno l k hl]

theorem cutAt_cons_pieces {offset n stop : ℕ} (hlt : offset < stop)
    (h : n = ZFS_MAXDATA ∨ n ≤ ZFS_MAXDATA ∧ stop ≤ offset + n) :
    cutAt offset stop :: pieces (offset + n) stop = pieces offset stop := by
  rw [pieces_of_lt hlt]
  rcases h with rfl | ⟨hn, hstop⟩
  · rfl
  · rw [pieces_of_ge hstop, pieces_of_ge (by omega)]

theorem Running.block_fits {junk : ℕ → ℕ} {c : Chunking} {done : List Span} {b : Span} (h : c.Running junk)
    (hlt : b.start < b.stop) (hstop : b.stop ≤ 2 ^ 63) (hle : ∀ a ∈ done, a.stop ≤ b.start)
    (htiled : TiledUpTo done c.all) (hjoin : ∀ k ∈ c.all.getLast?, k.joins b.start = true →
      ∃ old ∈ stale c.all, old.length = ZFS_MAXDATA ∨ b.stop ≤ k.offset + old.length) :
    (Chunking.block (b.stop + 2) c b).all = tileStep c.all b := by
  by_cases hno : ∀ l k, c.all = l ++ [k] → k.joins b.start = false
  · exact h.push hlt hstop hno
  · push Not at hno
    obtain ⟨l, k, hl, hjoins⟩ := hno
    replace hjoins : k.joins b.start = true := Bool.eq_true_of_not_eq_false hjoins
    have hlast : c.all.getLast? = some k := by rw [hl, getLast?_concat]
    obtain ⟨old, hold, hlen⟩ := hjoin k hlast hjoins
    have hmax := htiled.max old (mem_of_stale hold)
    have hkb : k.offset < b.stop := by
      have := htiled.stops k (by simp [hl]) b.start hle
      omega
    rw [block_join h.wf h.slots hlt hstop h.offset hl hjoins, Option.mem_def.mp hold, Option.map_some, Option.getD_some,
      cutAt_cons_pieces hkb (hlen.imp_right fun hend => ⟨hmax, hend⟩), tileStep, hlast]
    simp [hl, hjoins]

theorem Running.fits {junk : ℕ → ℕ} {c : Chunking} (done : List Span) {blocks : List Span} (h : c.Running junk)
    (hok : BlocksOk (done ++ blocks)) (htiled : TiledUpTo done c.all) (hfit : JoinsFit c.all blocks) :
    TiledUpTo (done ++ blocks) (blocks.foldl (fun c x => Chunking.block (x.stop + 2) c x) c).all := by
  induction blocks generalizing c done with
  | nil => simpa using htiled
  | cons b blocks ih =>
    have hlt := hok.lt b (by simp)
    have hstop := hok.stop_le b (by simp)
    have hle := hok.stop_le_start
    have hall := h.block_fits hlt hstop hle htiled hfit.1
    rw [foldl_cons, append_cons]
    rw [append_cons] at hok
    refine ih _ (h.block hlt hstop) hok ?_ ?_
    · rw [hall]
      exact htiled.step hlt hstop hle
    · rw [hall]
      exact hfit.2

end Chunking

theorem Chunked.keeps {all out l t : List Chunk} {k : Chunk} (h : Chunked all blocks out)
    (hall : all = l ++ k :: t) : ∃ n t', out = l ++ ⟨k.offset, n⟩ :: t' ∧ (t ≠ [] → n = k.length) := by
  induction h generalizing l k t with
  | nil all => exact ⟨k.length, t, hall, fun _ => rfl⟩
  | @push all out b blocks hno h ih =>
    obtain ⟨n, t', hout, hn⟩ := ih (l := l) (k := k) (t := t ++ pieces b.start b.stop) (by simp [hall])
    refine ⟨n, t', hout, fun ht => hn ?_⟩
    simp [ht]
  | @join l0 out k0 b blocks n0 hjoins h ih =>
    rcases eq_nil_or_concat t with rfl | ⟨t1, k1, rfl⟩
    · obtain ⟨rfl, rfl⟩ := append_inj' hall rfl |>.imp_right singleton_inj.mp
      obtain ⟨n, t', hout, -⟩ := ih rfl
      exact ⟨n, t', hout, fun hne => absurd rfl hne⟩
    · rw [concat_eq_append, ← cons_append, ← append_assoc] at hall
      obtain ⟨rfl, rfl⟩ := append_inj' hall rfl |>.imp_right singleton_inj.mp
      obtain ⟨n, t', hout, hn⟩ := ih (l := l) (k := k)
        (t := t1 ++ cutAt k0.offset b.stop :: pieces (k0.offset + n0) b.stop) (by simp)
      exact ⟨n, t', hout, fun _ => hn (by simp)⟩

namespace Chunking

/-- With a wrong slot, filled by the previous request or with zero, a chunk is followed by one that starts inside it. -/
theorem Running.overlaps {c : Chunking} (done : List Span) {blocks : List Span} (h : c.Running fun _ => 0)
    (hok : BlocksOk (done ++ blocks)) (htiled : TiledUpTo done c.all) (hfit : ¬ JoinsFit c.all blocks) :
    ¬ (blocks.foldl (fun c x => Chunking.block (x.stop + 2) c x) c).all.Pairwise
      fun k k' => k.offset + k.length ≤ k'.offset := by
  induction blocks generalizing c done with
  | nil => exact absurd trivial hfit
  | cons b blocks ih =>
    have hlt := hok.lt b (by simp)
    have hstop := hok.stop_le b (by simp)
    have hle := hok.stop_le_start
    have hrun := h.block hlt hstop
    rw [foldl_cons]
    by_cases hjoin : ∀ k ∈ c.all.getLast?, k.joins b.start = true →
        ∃ old ∈ stale c.all, old.length = ZFS_MAXDATA ∨ b.stop ≤ k.offset + old.length
    · -- this block is served, so a later one is not
      have hall := h.block_fits hlt hstop hle htiled hjoin
      rw [append_cons] at hok
      refine ih _ hrun hok ?_ ?_
      · rw [hall]
        exact htiled.step hlt hstop hle
      · rw [hall]
        exact fun hrest => hfit ⟨hjoin, hrest⟩
    · push Not at hjoin
      obtain ⟨k, hlast, hjoins, hslot⟩ := hjoin
      obtain ⟨l, hl⟩ := getLast?_eq_some_iff.mp hlast
      have hkb : k.offset < b.stop := by
        have := htiled.stops k (by simp [hl]) b.start hle
        omega
      obtain ⟨n, hn, hmax, hin⟩ : ∃ n, ((stale c.all).map Chunk.length).getD 0 = n ∧ n < ZFS_MAXDATA ∧
          k.offset + n < b.stop := by
        cases hold : stale c.all with
        | none => exact ⟨0, rfl, by decide, hkb⟩
        | some old =>
          obtain ⟨hne, hend⟩ := hslot old hold
          exact ⟨old.length, rfl, lt_of_le_of_ne (htiled.max old (mem_of_stale hold)) hne, hend⟩
      have hall := block_join h.wf h.slots hlt hstop h.offset hl hjoins
      rw [hn, pieces_of_lt hin, append_cons] at hall
      have hchunked : Chunked _ blocks _ := (foldl_chunked hrun.wf (fun x hx => hok.lt x (by simp [hx]))
        (fun x hx => hok.stop_le x (by simp [hx])) hrun.offset).2.2
      obtain ⟨m, t', hout, -⟩ := hchunked.keeps hall
      intro hsorted
      rw [hout] at hsorted
      have := (pairwise_append.mp hsorted).2.2 (cutAt k.offset b.stop) (by simp) _ mem_cons_self
      simp only [cutAt] at this
      omega

end Chunking

def RequestsFit (reqs : List (List Chunk)) : Prop := ∀ r ∈ reqs, r.length ≤ ZFS_MAX_MD5_CHUNKS

theorem running_start (hjunk : ∀ n, junk n < 2 ^ 32) : Chunking.Running junk ⟨⟨0, junk, junk⟩, []⟩ := by
  refine ⟨⟨hjunk, fun _ => rfl⟩, ⟨by simp, Nat.zero_le _, fun _ _ => rfl⟩, ?_⟩
  simp [Chunking.all, Md5Args.chunks]

theorem tiledUpTo_nil : TiledUpTo [] [] :=
  ⟨⟨by simp, by simp, Pairwise.nil, by simp, by simp⟩, by simp, by simp⟩

theorem Chunking.Running.foldl {c : Chunking} (h : c.Running junk)
    (hlt : ∀ b ∈ blocks, b.start < b.stop) (hstop : ∀ b ∈ blocks, b.stop ≤ 2 ^ 63) :
    (blocks.foldl (fun c x => Chunking.block (x.stop + 2) c x) c).Running junk := by
  induction blocks generalizing c with
  | nil => exact h
  | cons b blocks ih =>
    rw [foldl_cons]
    apply ih (h.block (hlt b mem_cons_self) (hstop b mem_cons_self))
    · exact fun x hx => hlt x (mem_cons_of_mem _ hx)
    · exact fun x hx => hstop x (mem_cons_of_mem _ hx)

theorem chunkBatches_fit (hjunk : ∀ n, junk n < 2 ^ 32) (hok : BlocksOk blocks) :
    RequestsFit (chunkBatches junk blocks) ∧ (chunkBatches junk blocks).flatten =
      (blocks.foldl (fun c x => Chunking.block (x.stop + 2) c x) ⟨⟨0, junk, junk⟩, []⟩).all := by
  have hrun := (running_start hjunk).foldl hok.lt hok.stop_le
  unfold chunkBatches
  generalize blocks.foldl (fun c x => Chunking.block (x.stop + 2) c x) ⟨⟨0, junk, junk⟩, []⟩ = c at hrun
  simp only
  split_ifs with hcount
  · refine ⟨fun r hr => ?_, by simp [Chunking.all]⟩
    rcases mem_append.mp hr with hr | hr
    · exact (hrun.slots.full r hr).le
    · rw [mem_singleton.mp hr]
      simpa [Md5Args.chunks] using hrun.slots.count
  · have hzero : c.args.count = 0 := by omega
    refine ⟨fun r hr => (hrun.slots.full r hr).le, ?_⟩
    rw [Chunking.all_zero hrun.wf hzero, hrun.wf.sent hzero]
    rfl

/-- Whatever is on the stack, the loop ends and no request has too many chunks; the chunks serve the blocks if and only
if each block that is joined finds a fitting length. -/
theorem chunkRequests_iff {blocks : List Span} (hok : BlocksOk blocks) :
    (∀ junk : ℕ → ℕ, (∀ n, junk n < 2 ^ 32) → ∃ reqs, chunkRequests junk blocks = some reqs ∧ RequestsFit reqs) ∧
      ((∀ junk : ℕ → ℕ, (∀ n, junk n < 2 ^ 32) → ∀ reqs, chunkRequests junk blocks = some reqs →
        Tiled blocks reqs.flatten) ↔ JoinsFit [] blocks) := by
  refine ⟨fun junk hjunk => ⟨_, chunkRequests_eq hjunk hok, (chunkBatches_fit hjunk hok).1⟩, ?_, ?_⟩
  · intro htiled
    by_contra hfit
    have hzero : ∀ _ : ℕ, 0 < 2 ^ 32 := by simp
    have hsorted := (htiled _ hzero _ (chunkRequests_eq hzero hok)).sorted
    rw [(chunkBatches_fit hzero hok).2] at hsorted
    exact Chunking.Running.overlaps [] (running_start hzero) hok tiledUpTo_nil hfit hsorted
  · intro hfit junk hjunk reqs hreqs
    rw [chunkRequests_eq hjunk hok, Option.some.injEq] at hreqs
    rw [← hreqs, (chunkBatches_fit hjunk hok).2]
    exact (Chunking.Running.fits [] (running_start hjunk) hok tiledUpTo_nil hfit).toTiled

/-- Blocks that are far from each other. -/
theorem chunkRequests_far :
    BlocksOk [⟨0, 2⟩, ⟨5000, 5002⟩] ∧ (∃ reqs, chunkRequests (fun _ => 7) [⟨0, 2⟩, ⟨5000, 5002⟩] = some reqs ∧
      reqs = [[⟨0, 2⟩, ⟨5000, 2⟩]] ∧ RequestsFit reqs ∧ Tiled [⟨0, 2⟩, ⟨5000, 5002⟩] reqs.flatten) := by
  have hok : BlocksOk [⟨0, 2⟩, ⟨5000, 5002⟩] := ⟨by decide, by decide, by decide⟩
  have hpieces : pieces 0 2 = [⟨0, 2⟩] := by
    rw [pieces_of_lt (by decide), pieces_of_ge (by decide)]
    rfl
  have hfit : JoinsFit [] [⟨0, 2⟩, ⟨5000, 5002⟩] := by
    refine ⟨by simp, fun k hk hjoins => ?_, trivial⟩
    rw [tileStep, getLast?_nil, hpieces] at hk
    obtain rfl : k = ⟨0, 2⟩ := (Option.some.inj hk).symm
    exact absurd hjoins (by decide)
  have hjunk : ∀ _ : ℕ, 7 < 2 ^ 32 := by simp
  obtain ⟨hends, htiled⟩ := chunkRequests_iff hok
  obtain ⟨reqs, hreqs, hroom⟩ := hends _ hjunk
  refine ⟨hok, reqs, hreqs, ?_, hroom, htiled.mpr hfit _ hjunk reqs hreqs⟩
  have heval : chunkRequests (fun _ => 7) [⟨0, 2⟩, ⟨5000, 5002⟩] = some [[⟨0, 2⟩, ⟨5000, 2⟩]] := by decide
  exact Option.some.inj (hreqs.symm.trans heval)

/-- Two near blocks: with a zero in the next slot the joined chunk is asked for twice, with more than a full chunk there
a part of the block is left out. -/
theorem chunkRequests_joined :
    (∃ reqs, chunkRequests (fun _ => 0) [⟨0, 2⟩, ⟨4, 6⟩] = some reqs ∧ ¬ Tiled [⟨0, 2⟩, ⟨4, 6⟩] reqs.flatten) ∧
      ∃ reqs, chunkRequests (fun _ => 9000) [⟨0, 2⟩, ⟨4, 9100⟩] = some reqs ∧ ¬ ∃ k ∈ reqs.flatten, k.Has 8500 := by
  have hzero : chunkRequests (fun _ => 0) [⟨0, 2⟩, ⟨4, 6⟩] = some [[⟨0, 6⟩, ⟨0, 6⟩]] := by decide
  have hbig : chunkRequests (fun _ => 9000) [⟨0, 2⟩, ⟨4, 9100⟩] = some [[⟨0, 8192⟩, ⟨9000, 100⟩]] := by decide
  refine ⟨⟨_, hzero, fun h => ?_⟩, _, hbig, by decide⟩
  exact absurd h.sorted (by decide)

end ZFS
