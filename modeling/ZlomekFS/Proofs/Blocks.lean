import ZlomekFS.Proofs.Chunking

/-! Which blocks `update_file_blocks` can serve. If no two of the blocks are joined, every range is
inside of one block and the blocks are covered; of the first two blocks that are joined or touch, a
byte is missed. -/

namespace ZFS
open Spans List

/-! ## Blocks that are not joined -/

/-- The later block `b` has no effect on the ranges of `a`: the file of `size` bytes ends in `a`, or
the blocks do not touch and the last range of `a` is not joined with `b`. -/
def Apart (size : ℕ) (a b : Span) : Prop :=
  size ≤ a.stop ∨ a.stop < b.start ∧
    (a.stop + ZFS_MODIFIED_BLOCK_SIZE ≤ b.start ∨ lastChunk a.start a.stop + ZFS_MAXDATA ≤ b.start)

instance (size : ℕ) (a b : Span) : Decidable (Apart size a b) := inferInstanceAs (Decidable (_ ∨ _))

def Fits (size : ℕ) (blocks : List Span) (k : Chunk) : Prop :=
  size ≤ k.offset ∨ ∃ b ∈ blocks, b.start ≤ k.offset ∧ min (k.offset + k.length) size ≤ b.stop

/-- From `offset` on the file is inside of one block. -/
def Ending (size : ℕ) (blocks : List Span) (offset : ℕ) : Prop :=
  size ≤ offset ∨ ∃ b ∈ blocks, b.start ≤ offset ∧ size ≤ b.stop

theorem Ending.fits {size : ℕ} {blocks : List Span} {offset : ℕ} {k : Chunk} (h : Ending size blocks offset)
    (hk : offset ≤ k.offset) : Fits size blocks k := by
  rcases h with h | ⟨b, hb, hle, hsize⟩
  · exact Or.inl (h.trans hk)
  · exact Or.inr ⟨b, hb, hle.trans hk, (min_le_right _ _).trans hsize⟩

theorem Ending.mono {size : ℕ} {blocks blocks' : List Span} {offset offset' : ℕ} (h : Ending size blocks offset)
    (hle : offset ≤ offset') (hsub : blocks ⊆ blocks') : Ending size blocks' offset' := by
  rcases h with h | ⟨b, hb, hstart, hsize⟩
  · exact Or.inl (h.trans hle)
  · exact Or.inr ⟨b, hsub hb, hstart.trans hle, hsize⟩

/-- The last range before the block `b` is the last one of `a` as it was cut, or there is nothing
of the file after `a`. -/
structure LastOk (size : ℕ) (done : List Span) (a : Span) (k : Chunk) : Prop where
  lt : a.start < a.stop
  stop : k.offset + k.length ≤ a.stop
  cut : k = ⟨lastChunk a.start a.stop, a.stop - lastChunk a.start a.stop⟩ ∨ size ≤ a.stop
  ending : size ≤ a.stop → Ending size done k.offset

/-- The ranges `all` serve the blocks `done`, with `rest` still to come. -/
structure Served (size : ℕ) (done : List Span) (all : List Chunk) (rest : List Span) : Prop where
  fits : ∀ k ∈ all, Fits size done k
  cover : ∀ i < size, Covers done i → ∃ k ∈ all, k.Has i
  last : ∀ l k, all = l ++ [k] → ∃ a, LastOk size done a k ∧ ∀ b ∈ rest, a.stop ≤ b.start ∧ Apart size a b

theorem Fits.mono {size : ℕ} {blocks blocks' : List Span} {k : Chunk} (h : Fits size blocks k)
    (hsub : blocks ⊆ blocks') : Fits size blocks' k :=
  h.imp_right fun ⟨b, hb, h⟩ => ⟨b, hsub hb, h⟩

theorem Served.push {size : ℕ} {done rest : List Span} {all : List Chunk} {b : Span}
    (h : Served size done all (b :: rest)) (hlt : b.start < b.stop)
    (hb : ∀ x ∈ rest, b.stop ≤ x.start ∧ Apart size b x) :
    Served size (done ++ [b]) (all ++ pieces b.start b.stop) rest := by
  have hsub : done ⊆ done ++ [b] := subset_append_left _ _
  refine ⟨?_, ?_, ?_⟩
  · intro k hk
    rcases mem_append.mp hk with hk | hk
    · exact (h.fits k hk).mono hsub
    · exact Or.inr ⟨b, by simp, (mem_pieces hk).1, (min_le_left _ _).trans (mem_pieces_stop hk)⟩
  · intro i hi hcov
    rcases (covers_append _ _ _).mp hcov with hcov | hcov
    · obtain ⟨k, hk, hki⟩ := h.cover i hi hcov
      exact ⟨k, mem_append_left _ hk, hki⟩
    · obtain ⟨x, hx, hle, hix⟩ := hcov
      obtain rfl := mem_singleton.mp hx
      obtain ⟨k, hk, hki⟩ := pieces_cover hle hix
      exact ⟨k, mem_append_right _ hk, hki⟩
  · intro l k hall
    obtain ⟨l', hl', -⟩ := pieces_last hlt
    rw [hl', ← append_assoc] at hall
    obtain ⟨-, rfl⟩ := append_inj' hall rfl |>.imp_right singleton_inj.mp
    obtain ⟨hle, hlast, -⟩ := lastChunk_spec hlt
    exact ⟨b, ⟨hlt, by simp only; omega, Or.inl rfl, fun hs => Or.inr ⟨b, by simp, hle, hs⟩⟩, hb⟩

theorem Served.join {size : ℕ} {done rest : List Span} {l : List Chunk} {k : Chunk} {b : Span} (n : ℕ)
    (h : Served size done (l ++ [k]) (b :: rest)) (ha : Ahead (l ++ [k]) (b :: rest))
    (hjoins : k.joins b.start = true) (hlt : b.start < b.stop) (hstop : b.stop ≤ 2 ^ 63)
    (hb : ∀ x ∈ rest, b.stop ≤ x.start ∧ Apart size b x) :
    Served size (done ++ [b]) (l ++ cutAt k.offset b.stop :: pieces (k.offset + n) b.stop) rest := by
  have hsub : done ⊆ done ++ [b] := subset_append_left _ _
  obtain ⟨a, hk, harest⟩ := h.last l k rfl
  obtain ⟨hab, hapart⟩ := harest b mem_cons_self
  have hstopk := hk.stop
  -- only a block behind the end of the file is joined
  have hsize : size ≤ a.stop := by
    rcases hk.cut with hcut | hcut
    · have hlast := (lastChunk_spec (hk.lt)).2
      rw [Chunk.joins_iff (by omega) (by omega)] at hjoins
      rcases hapart with hapart | hapart
      · exact hapart
      · have : k.offset = lastChunk a.start a.stop ∧ k.length = a.stop - lastChunk a.start a.stop := by
          rw [hcut]
          exact ⟨rfl, rfl⟩
        omega
    · exact hcut
  have hend := (hk.ending hsize).mono le_rfl hsub
  refine ⟨?_, ?_, ?_⟩
  · intro k' hk'
    rw [mem_append, mem_cons] at hk'
    rcases hk' with hk' | rfl | hk'
    · exact (h.fits k' (by simp [hk'])).mono hsub
    · exact hend.fits le_rfl
    · exact hend.fits ((Nat.le_add_right _ n).trans (mem_pieces hk').1)
  · intro i hi hcov
    rcases (covers_append _ _ _).mp hcov with hcov | ⟨x, hx, hix⟩
    · obtain ⟨k', hk', hki⟩ := h.cover i hi hcov
      rcases mem_append.mp hk' with hk' | hk'
      · exact ⟨k', mem_append_left _ hk', hki⟩
      · -- the range was made longer
        obtain rfl := mem_singleton.mp hk'
        have hlen := ha.length k' (by simp)
        refine ⟨cutAt k'.offset b.stop, by simp, hki.1, ?_⟩
        have := hki.2
        simp only [cutAt]
        omega
    · obtain rfl := mem_singleton.mp hx
      have := hix.1
      omega
  · intro l' k' hall
    refine ⟨b, ?_, hb⟩
    have hmem : k' ∈ cutAt k.offset b.stop :: pieces (k.offset + n) b.stop := by
      have : k' = (l ++ cutAt k.offset b.stop :: pieces (k.offset + n) b.stop).getLast (by simp) := by
        simp [hall]
      rw [this, getLast_append_of_ne_nil _ (by simp)]
      exact getLast_mem _
    have hcut : k.offset ≤ k'.offset ∧ k'.offset + k'.length ≤ b.stop := by
      rcases mem_cons.mp hmem with rfl | hk'
      · simp only [cutAt]
        omega
      · exact ⟨(Nat.le_add_right _ n).trans (mem_pieces hk').1, mem_pieces_stop hk'⟩
    exact ⟨hlt, hcut.2, Or.inr (by omega), fun _ => hend.mono hcut.1 (Subset.refl _)⟩

theorem Chunked.served {size : ℕ} {all out : List Chunk} {rest : List Span} (h : Chunked all rest out)
    (done : List Span) (hs : Served size done all rest) (ha : Ahead all rest) (hlt : ∀ b ∈ rest, b.start < b.stop)
    (hstop : ∀ b ∈ rest, b.stop ≤ 2 ^ 63)
    (hrest : rest.Pairwise fun a b => a.stop ≤ b.start ∧ Apart size a b) : Served size (done ++ rest) out [] := by
  induction h generalizing done with
  | nil all => simpa using hs
  | push _ _ ih =>
    obtain ⟨hb, hrest⟩ := pairwise_cons.mp hrest
    have := ih _ (hs.push (hlt _ mem_cons_self) hb) (ha.push fun x hx => (hb x hx).1)
      (fun x hx => hlt x (mem_cons_of_mem _ hx)) (fun x hx => hstop x (mem_cons_of_mem _ hx)) hrest
    simpa using this
  | join n hjoins _ ih =>
    obtain ⟨hb, hrest⟩ := pairwise_cons.mp hrest
    have := ih _ (hs.join n ha hjoins (hlt _ mem_cons_self) (hstop _ mem_cons_self) hb)
      (ha.join n fun x hx => (hb x hx).1) (fun x hx => hlt x (mem_cons_of_mem _ hx))
      (fun x hx => hstop x (mem_cons_of_mem _ hx)) hrest
    simpa using this

/-! ## Blocks that are joined -/

theorem lastPiece_joins_iff {a : Span} {start : ℕ} (hlt : a.start < a.stop) (hle : a.stop ≤ start)
    (hs : start ≤ 2 ^ 63) :
    (⟨lastChunk a.start a.stop, a.stop - lastChunk a.start a.stop⟩ : Chunk).joins start = true ↔
      start < lastChunk a.start a.stop + ZFS_MAXDATA ∧ start < a.stop + ZFS_MODIFIED_BLOCK_SIZE := by
  have := (lastChunk_spec hlt).2.1
  rw [Chunk.joins_iff (by simp only; omega) (by omega), Nat.add_sub_cancel' this.le]

theorem exists_not_apart {size : ℕ} {blocks : List Span} (hs : blocks.Pairwise (·.stop ≤ ·.start))
    (hlt : ∀ b ∈ blocks, b.start < b.stop) (h : ¬ blocks.Pairwise (Apart size)) :
    ∃ pre a b post, blocks = pre ++ a :: b :: post ∧ (pre ++ [a]).Pairwise (Apart size) ∧ ¬ Apart size a b := by
  induction blocks using reverseRecOn with
  | nil => exact absurd Pairwise.nil h
  | append_singleton l x ih =>
    obtain ⟨hsl, -, hsx⟩ := pairwise_append.mp hs
    by_cases hl : l.Pairwise (Apart size)
    · rcases eq_nil_or_concat' l with rfl | ⟨pre, a, rfl⟩
      · simp at h
      · refine ⟨pre, a, x, [], by simp, hl, fun hax => h ?_⟩
        rw [pairwise_append]
        refine ⟨hl, pairwise_singleton _ _, fun c hc y hy => ?_⟩
        obtain rfl := mem_singleton.mp hy
        rcases mem_append.mp hc with hc | hc
        · have hca := (pairwise_append.mp hl).2.2 c hc a (by simp)
          have hlta := hlt a (by simp)
          have hay := hsx a (by simp) y (by simp)
          unfold Apart at hca ⊢
          omega
        · obtain rfl := mem_singleton.mp hc
          exact hax
    · obtain ⟨pre, a, b, post, rfl, hpre, hab⟩ := ih hsl (fun b hb => hlt b (by simp [hb])) hl
      exact ⟨pre, a, b, post ++ [x], by simp, hpre, hab⟩

theorem Chunked.upTo {size : ℕ} {all out : List Chunk} {pre rest : List Span} {a : Span}
    (h : Chunked all (pre ++ a :: rest) out) (hsize : a.stop < size)
    (hno : ∀ l k, all = l ++ [k] → ∀ b ∈ pre ++ [a], k.joins b.start = false)
    (hend : ∀ k ∈ all, ∀ b ∈ pre ++ [a], k.offset + k.length ≤ b.start)
    (hlt : ∀ b ∈ pre ++ [a], b.start < b.stop ∧ b.stop ≤ 2 ^ 63)
    (hpw : (pre ++ [a]).Pairwise fun a b => a.stop ≤ b.start ∧ Apart size a b) :
    ∃ all', Chunked (all' ++ pieces a.start a.stop) rest out ∧ ∀ k ∈ all', k.offset + k.length ≤ a.start := by
  induction pre generalizing all with
  | nil =>
    cases h with
    | push _ h => exact ⟨all, h, fun k hk => hend k hk a (by simp)⟩
    | join n hjoins _ => simp [hno _ _ rfl a (by simp)] at hjoins
  | cons b pre ih =>
    cases h with
    | join n hjoins _ => simp [hno _ _ rfl b (by simp)] at hjoins
    | push _ h =>
      obtain ⟨hb, hpw⟩ := pairwise_cons.mp hpw
      obtain ⟨hblt, hbstop⟩ := hlt b (by simp)
      refine ih h ?_ ?_ (fun x hx => hlt x (by simp at hx ⊢; tauto)) hpw
      · intro l k hall x hx
        obtain ⟨l', hl', -⟩ := pieces_last hblt
        rw [hl', ← append_assoc] at hall
        obtain ⟨-, rfl⟩ := append_inj' hall rfl |>.imp_right singleton_inj.mp
        obtain ⟨hxlt, hxstop⟩ := hlt x (by simp at hx ⊢; tauto)
        obtain ⟨hbx, hapart⟩ := hb x hx
        have hba := (hb a (by simp)).1
        have halt := (hlt a (by simp)).1
        rw [← Bool.not_eq_true, lastPiece_joins_iff hblt hbx (by omega)]
        unfold Apart at hapart
        omega
      · intro k hk x hx
        rcases mem_append.mp hk with hk | hk
        · exact hend k hk x (by simp at hx ⊢; tauto)
        · exact (mem_pieces_stop hk).trans (hb x hx).1

/-- The range does not have the byte `z`, or it starts with it and ends behind `stop`. -/
def Skips (z stop : ℕ) (k : Chunk) : Prop :=
  k.offset + k.length ≤ z ∨ z ≤ k.offset ∧ (k.offset = z → stop < z + k.length)

/-- All ranges skip `z`, and it is too late for another one before it. -/
structure Missed (z stop : ℕ) (all : List Chunk) : Prop where
  skips : ∀ k ∈ all, Skips z stop k
  last : ∀ l k, all = l ++ [k] → z ≤ k.offset

theorem skips_cutAt {z stop offset stop' : ℕ} (hz : z ≤ offset) (hstop : stop < stop')
    (hnear : stop < z + ZFS_MAXDATA) : Skips z stop (cutAt offset stop') := by
  refine Or.inr ⟨hz, fun h => ?_⟩
  simp only [cutAt] at h ⊢
  omega

theorem skips_pieces {z stop start stop' : ℕ} (hz : z ≤ start) (hstop : stop < stop')
    (hnear : stop < z + ZFS_MAXDATA) : ∀ k ∈ pieces start stop', Skips z stop k := by
  intro k hk
  obtain ⟨hle, -, hcut⟩ := mem_pieces hk
  rw [hcut]
  exact skips_cutAt (hz.trans hle) hstop hnear

theorem missed_append {z stop : ℕ} {l m : List Chunk} (hl : ∀ k ∈ l, Skips z stop k) (hm : m ≠ [])
    (hskips : ∀ k ∈ m, Skips z stop k) (hz : ∀ k ∈ m, z ≤ k.offset) : Missed z stop (l ++ m) := by
  refine ⟨fun k hk => (mem_append.mp hk).elim (hl k) (hskips k), fun l' k hall => hz k ?_⟩
  have : k = (l ++ m).getLast (by simp [hm]) := by simp [hall]
  rw [this, getLast_append_of_ne_nil _ hm]
  exact getLast_mem _

theorem Missed.push {z stop : ℕ} {all : List Chunk} {b : Span} (h : Missed z stop all) (hz : z ≤ b.start)
    (hlt : b.start < b.stop) (hstop : stop < b.stop) (hnear : stop < z + ZFS_MAXDATA) :
    Missed z stop (all ++ pieces b.start b.stop) := by
  refine missed_append h.skips ?_ (skips_pieces hz hstop hnear) fun k hk => hz.trans (mem_pieces hk).1
  rw [pieces_of_lt hlt]
  simp

theorem missed_join {z stop offset : ℕ} {l : List Chunk} (b : Span) (n : ℕ) (hl : ∀ k ∈ l, Skips z stop k)
    (hz : z ≤ offset) (hstop : stop < b.stop) (hnear : stop < z + ZFS_MAXDATA) :
    Missed z stop (l ++ cutAt offset b.stop :: pieces (offset + n) b.stop) := by
  have hz' : z ≤ offset + n := hz.trans (Nat.le_add_right _ _)
  refine missed_append hl (by simp) ?_ ?_
  · intro k hk
    rcases mem_cons.mp hk with rfl | hk
    · exact skips_cutAt hz hstop hnear
    · exact skips_pieces hz' hstop hnear k hk
  · intro k hk
    rcases mem_cons.mp hk with rfl | hk
    · exact hz
    · exact hz'.trans (mem_pieces hk).1

theorem Chunked.missed {z stop : ℕ} {all out : List Chunk} {blocks : List Span} (h : Chunked all blocks out)
    (hm : Missed z stop all) (hz : ∀ b ∈ blocks, z ≤ b.start ∧ b.start < b.stop ∧ stop < b.stop)
    (hnear : stop < z + ZFS_MAXDATA) : Missed z stop out := by
  induction h with
  | nil all => exact hm
  | push _ _ ih =>
    obtain ⟨hzb, hlt, hstop⟩ := hz _ mem_cons_self
    exact ih (hm.push hzb hlt hstop hnear) fun x hx => hz x (mem_cons_of_mem _ hx)
  | join n _ _ ih =>
    obtain ⟨-, -, hstop⟩ := hz _ mem_cons_self
    exact ih (missed_join _ n (fun k hk => hm.skips k (by simp [hk])) (hm.last _ _ rfl) hstop hnear)
      fun x hx => hz x (mem_cons_of_mem _ hx)

/-- Of two blocks that are not apart one has a byte that no range brings. -/
theorem Chunked.missed_of_not_apart {size : ℕ} {pre post : List Span} {a b : Span} {out : List Chunk}
    (hok : BlocksOk (pre ++ a :: b :: post)) (h : Chunked [] (pre ++ a :: b :: post) out)
    (hpre : (pre ++ [a]).Pairwise (Apart size)) (hab : ¬ Apart size a b) :
    ∃ z ≤ a.stop, Covers (pre ++ a :: b :: post) z ∧ ∀ k ∈ out, Skips z a.stop k := by
  have hsub : ∀ x ∈ pre ++ [a], x ∈ pre ++ a :: b :: post := by simp; tauto
  have hsize : a.stop < size := by
    unfold Apart at hab
    omega
  have hsorted : (pre ++ [a]).Pairwise (·.stop ≤ ·.start) :=
    hok.sorted.sublist ((singleton_sublist.mpr mem_cons_self).append_left pre)
  obtain ⟨-, hs, -⟩ := pairwise_append.mp hok.sorted
  obtain ⟨hax, hsb⟩ := pairwise_cons.mp hs
  obtain ⟨hbx, -⟩ := pairwise_cons.mp hsb
  have hlta := hok.lt a (by simp)
  have hltb := hok.lt b (by simp)
  have hstopb := hok.stop_le b (by simp)
  have hle := hax b (by simp)
  obtain ⟨all, h, hend⟩ := h.upTo hsize (by simp) (by simp)
    (fun x hx => ⟨hok.lt x (hsub x hx), hok.stop_le x (hsub x hx)⟩) (hsorted.and hpre)
  obtain ⟨l, hl, hlend⟩ := pieces_last hlta
  obtain ⟨hlo, hhi, -⟩ := lastChunk_spec hlta
  rw [hl, ← append_assoc] at h
  generalize hall : (all ++ l) ++ [_] = all0 at h
  have hpost (z : ℕ) (hz : z ≤ a.stop) (x : Span) (hx : x ∈ post) : z ≤ x.start ∧ x.start < x.stop ∧ a.stop < x.stop := by
    have := hbx x hx
    have := hok.lt x (by simp [hx])
    omega
  cases h with
  | push hno h =>
    -- the blocks touch, and the cursor stays at the first one
    have hjoins := hno _ _ hall.symm
    rw [← Bool.not_eq_true, lastPiece_joins_iff hlta hle (by omega)] at hjoins
    have htouch : a.stop = b.start := by
      unfold Apart at hab
      omega
    have hpos : 0 < ZFS_MAXDATA := by decide
    refine ⟨a.stop, le_rfl, ⟨b, by simp, htouch.ge, by omega⟩, (h.missed ?_ (hpost _ le_rfl) (by omega)).skips⟩
    refine missed_append (fun k hk => Or.inl ?_) ?_ (skips_pieces htouch.le (by omega) (by omega))
      fun k hk => htouch.le.trans (mem_pieces hk).1
    · rw [← hall, mem_append, mem_append, mem_singleton] at hk
      rcases hk with (hk | hk) | rfl
      · exact (hend k hk).trans hlta.le
      · exact (hlend k hk).trans hhi.le
      · simp only
        omega
    · rw [pieces_of_lt hltb]
      simp
  | join n hjoins h =>
    obtain ⟨rfl, rfl⟩ := append_inj' hall rfl |>.imp_right singleton_inj.mp
    rw [lastPiece_joins_iff hlta hle (by omega)] at hjoins
    have hnear : a.stop < lastChunk a.start a.stop + ZFS_MAXDATA := by omega
    refine ⟨lastChunk a.start a.stop, hhi.le, ⟨a, by simp, hlo, hhi⟩,
      (h.missed (missed_join b n (fun k hk => Or.inl ?_) le_rfl (by omega) hnear) (hpost _ hhi.le) hnear).skips⟩
    rcases mem_append.mp hk with hk | hk
    · exact (hend k hk).trans hlo
    · exact hlend k hk

end ZFS
