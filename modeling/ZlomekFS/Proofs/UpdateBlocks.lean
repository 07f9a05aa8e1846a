import ZlomekFS.Proofs.FileTrees
import ZlomekFS.Proofs.UpdateRule

/-! `update_file_blocks` makes the blocks equal to the remote file, for every content of the two
files, exactly if no two blocks touch or are joined to one range. A range that is not inside of one
block is read back and written unchanged, but recorded as updated. -/

namespace ZFS
open Spans FlatFile InternalFh

/-! ## Apart blocks -/

/-- The file moves towards the remote one inside of the blocks, and only bytes that have arrived are
recorded as updated. -/
structure Toward (remote : FlatFile UInt8) (blocks : List Span) (fh fh' : InternalFh) : Prop where
  attr : fh'.attr = fh.attr
  master : fh'.metadata.masterVersion = fh.metadata.masterVersion
  size : fh'.data.size = fh.data.size
  byte : ∀ i, fh'.data.byte i = fh.data.byte i ∨ Covers blocks i ∧ fh'.data.byte i = remote.byte i
  updated : ∀ i ∈ fh'.updated, i ∈ fh.updated ∨ fh'.data.byte i = remote.byte i
  grows : ∀ i ∈ fh.updated, i ∈ fh'.updated

theorem Toward.refl (remote : FlatFile UInt8) (blocks : List Span) (fh : InternalFh) : Toward remote blocks fh fh :=
  ⟨rfl, rfl, rfl, fun _ => Or.inl rfl, fun _ h => Or.inl h, fun _ h => h⟩

variable {remote : FlatFile UInt8} {blocks : List Span}

theorem Toward.arrived {fh fh' : InternalFh}
    (h : Toward remote blocks fh fh') {i : ℕ} (hi : fh.data.byte i = remote.byte i) :
    fh'.data.byte i = remote.byte i := by
  rcases h.byte i with hsame | ⟨-, hbyte⟩
  · rw [hsame, hi]
  · exact hbyte

theorem Toward.trans {fh fh' fh'' : InternalFh}
    (h : Toward remote blocks fh fh') (h' : Toward remote blocks fh' fh'') : Toward remote blocks fh fh'' := by
  refine ⟨h'.attr.trans h.attr, h'.master.trans h.master, h'.size.trans h.size, ?_, ?_,
    fun i hi => h'.grows i (h.grows i hi)⟩
  · intro i
    rcases h'.byte i with hsame | hbyte
    · rw [hsame]
      exact h.byte i
    · exact Or.inr hbyte
  · intro i hi
    rcases h'.updated i hi with hi | hi
    · exact (h.updated i hi).imp_right h'.arrived
    · exact Or.inr hi

theorem read_eq_byte {f g : FlatFile UInt8} {c : Chunk} {i : ℕ} (h : f.read c.offset c.length = g.read c.offset c.length)
    (hc : c.Has i) (hf : c.offset + c.length ≤ f.size) (hg : c.offset + c.length ≤ g.size) : f.byte i = g.byte i := by
  obtain ⟨hle, hlt⟩ := hc
  have hi := congrArg (fun l => l.getD (i - c.offset) 0) h
  rwa [getD_read f _ _ _ 0 (by omega) (by omega), getD_read g _ _ _ 0 (by omega) (by omega),
    Nat.add_sub_cancel' hle] at hi

theorem RangeStep.toward {c : Chunk} {fh fh' : InternalFh}
    (h : RangeStep remote blocks c fh fh') (hsize : fh.data.size = remote.size)
    (hend : c.offset + c.length ≤ remote.size) (hpos : 0 < c.length)
    (hin : ∃ b ∈ blocks, b.start ≤ c.offset ∧ c.offset + c.length ≤ b.stop)
    (hs : blocks.Pairwise fun a b => a.stop ≤ b.start ∧ Apart remote.size a b) :
    Toward remote blocks fh fh' ∧ ∀ i, c.Has i → fh'.data.byte i = remote.byte i := by
  obtain ⟨b, hb, hstart, hstop⟩ := hin
  cases h with
  | same heq =>
    have hbyte (i : ℕ) (hi : c.Has i) : fh.data.byte i = remote.byte i :=
      read_eq_byte heq hi (by omega) hend
    refine ⟨⟨fh.markSame_attr c, by simp, by simp, fun i => Or.inl (by simp), ?_, ?_⟩,
      fun i hi => by simpa using hbyte i hi⟩
    · intro i hi
      rw [mem_markSame_updated] at hi
      exact hi.imp_right fun hi => by simpa using hbyte i hi
    · intro i hi
      exact mem_markSame_updated.mpr (Or.inl hi)
  | fetch j hp hj =>
    have hlen : (remote.read c.offset c.length).length = c.length := by
      rw [length_read]
      omega
    have hfind := hp.find hj hb hstart (by omega) (by omega) hs
    rw [mergeRange_of_inside hfind hstart (by omega)]
    have hbyte (i : ℕ) (hi : c.Has i) :
        (fh.data.write c.offset (remote.read c.offset c.length)).byte i = remote.byte i := by
      obtain ⟨hle, hlt⟩ := hi
      rw [byte_write _ _ 0 hle (by omega), getD_read _ _ _ _ _ (by omega) (by omega),
        Nat.add_sub_cancel' hle]
    refine ⟨⟨rfl, rfl, ?_, fun i => ?_, ?_, ?_⟩, hbyte⟩
    · exact size_write_of_le _ (by omega)
    · by_cases hi : c.Has i
      · exact Or.inr ⟨⟨b, hb, hstart.trans hi.1, hi.2.trans_le hstop⟩, hbyte i hi⟩
      · left
        change (fh.data.write c.offset _).byte i = _
        unfold Chunk.Has at hi
        rcases lt_or_ge i c.offset with hlt | hge
        · exact byte_write_of_lt _ _ hlt
        · exact byte_write_of_ge _ _ (by omega)
    · intro i hi
      rw [mem_appendInterval_updated, hlen] at hi
      exact hi.imp_right (hbyte i)
    · intro i hi
      exact mem_appendInterval_updated.mpr (Or.inl hi)

structure Stale (z : ℕ) (fh fh' : InternalFh) : Prop where
  attr : fh'.attr = fh.attr
  master : fh'.metadata.masterVersion = fh.metadata.masterVersion
  size : fh'.data.size = fh.data.size
  byte : fh'.data.byte z = fh.data.byte z

/-- A range that starts in the block `a` and ends behind it finds no block it is inside of. -/
theorem Passed.not_inside {a : Span} {j z n : ℕ} (hp : Passed blocks j z)
    (hlt : ∀ b ∈ blocks, b.start < b.stop) (hs : blocks.Pairwise (·.stop ≤ ·.start)) (ha : a ∈ blocks)
    (hz : z ≤ a.stop) (hn : a.stop < z + n) : ∀ b, blocks[j]? = some b → ¬ (b.start ≤ z ∧ z + n ≤ b.stop) := by
  intro b hb hin
  obtain ⟨m, hm, rfl⟩ := List.mem_iff_getElem.mp ha
  obtain ⟨hj, rfl⟩ := List.getElem?_eq_some_iff.mp hb
  have halt := hlt _ ha
  have hsort := List.pairwise_iff_getElem.mp hs
  rcases lt_trichotomy j m with hjm | rfl | hmj
  · have := hsort j m hj hm hjm
    omega
  · omega
  · have := hsort m j hm hj hmj
    have := hp blocks[m] (List.mem_take_iff_getElem.mpr ⟨m, by omega, rfl⟩)
    omega

theorem RangeStep.stale {a : Span} {c : Chunk} {fh fh' : InternalFh}
    {z : ℕ} (h : RangeStep remote blocks c fh fh') (hsize : fh.data.size = remote.size)
    (hend : c.offset + c.length ≤ remote.size) (hskips : c.Has z → c.offset = z ∧ a.stop < z + c.length)
    (hlt : ∀ b ∈ blocks, b.start < b.stop) (hs : blocks.Pairwise (·.stop ≤ ·.start)) (ha : a ∈ blocks)
    (hz : z ≤ a.stop) : Stale z fh fh' := by
  cases h with
  | same => exact ⟨fh.markSame_attr c, by simp, by simp, by simp⟩
  | fetch j hp hj =>
    have hlen : (remote.read c.offset c.length).length = c.length := by
      rw [length_read]
      omega
    have hmerge := length_mergeRange fh.data (remote.read c.offset c.length) hj
    refine ⟨rfl, rfl, size_write_of_le _ (by omega), ?_⟩
    change (fh.data.write c.offset _).byte z = _
    by_cases hc : c.Has z
    · obtain ⟨rfl, hstop⟩ := hskips hc
      have hlocal : (fh.data.read c.offset c.length).length = c.length := by
        rw [length_read]
        omega
      rw [mergeRange_of_not_inside hj (hp.not_inside hlt hs ha hz (by omega)), hlen, hlocal,
        List.drop_of_length_le hlen.le, List.append_nil, write_read]
    · unfold Chunk.Has at hc
      rcases lt_or_ge z c.offset with hlt | hge
      · exact byte_write_of_lt _ _ hlt
      · exact byte_write_of_ge _ _ (by omega)

/-! ## The two instances of the rule -/

def Inside (size : ℕ) (blocks : List Span) (c : Chunk) : Prop :=
  (0 < c.length ∧ c.length ≤ ZFS_MAXDATA ∧ c.offset + c.length ≤ size) ∧
    ∃ b ∈ blocks, b.start ≤ c.offset ∧ c.offset + c.length ≤ b.stop

/-- No range of the requests brings `z`. -/
def Beside (size : ℕ) (a : Span) (z : ℕ) (c : Chunk) : Prop :=
  (0 < c.length ∧ c.length ≤ ZFS_MAXDATA ∧ c.offset + c.length ≤ size) ∧
    (c.Has z → c.offset = z ∧ a.stop < z + c.length)

structure Steady (remote : FlatFile UInt8) (version : ℕ) (fh : InternalFh) : Prop where
  attr : fh.attr.size = remote.size
  data : fh.data.size = remote.size
  version : fh.attr.version = fh.metadata.masterVersion → fh.metadata.masterVersion = version

theorem toward_flush (remote : FlatFile UInt8) (blocks : List Span) (fh : InternalFh) :
    Toward remote blocks fh (fh.flushDeleted .modified) := by
  have hsame := fh.flushDeleted_same
  refine ⟨hsame.attr, hsame.masterVersion, by rw [hsame.data], fun i => Or.inl (by rw [hsame.data]), ?_, ?_⟩
  · intro i hi
    rw [fh.flushDeleted_updated] at hi
    exact Or.inl hi
  · intro i hi
    rwa [fh.flushDeleted_updated]

theorem toward_rule {version : ℕ} {fh : InternalFh}
    (h : Steady remote version fh) (hs : blocks.Pairwise fun a b => a.stop ≤ b.start ∧ Apart remote.size a b) :
    RangeRule remote version blocks (Inside remote.size blocks) (Toward remote blocks fh)
      fun c fh' => ∀ i, c.Has i → fh'.data.byte i = remote.byte i where
  step := by
    intro c fh1 fh2 hc h1 hstep
    obtain ⟨htoward, hbytes⟩ := hstep.toward (h1.size.trans h.data) hc.1.2.2 hc.1.1 hc.2 hs
    exact ⟨h1.trans htoward, hbytes, fun c' hc' i hi => htoward.arrived (hc' i hi)⟩
  flush := by
    intro fh1 h1
    have hflush := toward_flush remote blocks fh1
    exact ⟨h1.trans hflush, fun c hc i hi => hflush.arrived (hc i hi)⟩
  size := fun fh1 h1 => ⟨by rw [h1.attr, h.attr], by rw [h1.size, h.data]⟩
  version := fun fh1 h1 => by
    rw [h1.attr, h1.master]
    exact h.version
  sane := fun c hc => ⟨hc.1.2.1, hc.1.2.2⟩

theorem stale_rule {version : ℕ} {a : Span} {z : ℕ} {fh : InternalFh}
    (h : Steady remote version fh) (hok : BlocksOk blocks) (ha : a ∈ blocks) (hz : z ≤ a.stop) :
    RangeRule remote version blocks (Beside remote.size a z) (Stale z fh) fun _ _ => True where
  step := by
    intro c fh1 fh2 hc h1 hstep
    obtain ⟨hattr, hmaster, hsize, hbyte⟩ :=
      hstep.stale (h1.size.trans h.data) hc.1.2.2 hc.2 hok.lt hok.sorted ha hz
    exact ⟨⟨hattr.trans h1.attr, hmaster.trans h1.master, hsize.trans h1.size, hbyte.trans h1.byte⟩, trivial,
      fun _ _ => trivial⟩
  flush := by
    intro fh1 h1
    have hsame := fh1.flushDeleted_same
    exact ⟨⟨hsame.attr.trans h1.attr, hsame.masterVersion.trans h1.master, by rw [hsame.data, h1.size],
      by rw [hsame.data, h1.byte]⟩, fun _ _ => trivial⟩
  size := fun fh1 h1 => ⟨by rw [h1.attr, h.attr], by rw [h1.size, h.data]⟩
  version := fun fh1 h1 => by
    rw [h1.attr, h1.master]
    exact h.version
  sane := fun c hc => ⟨hc.1.2.1, hc.1.2.2⟩

theorem clip_sane {size : ℕ} {k : Chunk} (hlen : k.length ≤ ZFS_MAXDATA) (hpos : 0 < (k.clip size).length) :
    0 < (k.clip size).length ∧ (k.clip size).length ≤ ZFS_MAXDATA ∧
      (k.clip size).offset + (k.clip size).length ≤ size := by
  simp only [Chunk.clip] at hpos ⊢
  omega

theorem inside_of_apart {size : ℕ} {out : List Chunk} (hserved : Served size blocks out [])
    (hahead : Ahead out []) : ∀ c ∈ ranges size out, Inside size blocks c := by
  intro c hc
  obtain ⟨hpos, k, hk, rfl⟩ := mem_ranges.mp hc
  refine ⟨clip_sane (hahead.length k hk) hpos, ?_⟩
  simp only [Chunk.clip] at hpos ⊢
  rcases hserved.fits k hk with hsize | ⟨b, hb, hle, hstop⟩
  · omega
  · exact ⟨b, hb, hle, by omega⟩

theorem beside_of_skips {size : ℕ} {a : Span} {z : ℕ} {out : List Chunk} (hsize : a.stop < size)
    (hskips : ∀ k ∈ out, Skips z a.stop k) (hahead : Ahead out []) : ∀ c ∈ ranges size out, Beside size a z c := by
  intro c hc
  obtain ⟨hpos, k, hk, rfl⟩ := mem_ranges.mp hc
  refine ⟨clip_sane (hahead.length k hk) hpos, ?_⟩
  have := hskips k hk
  unfold Skips at this
  simp only [Chunk.clip, Chunk.Has] at hpos ⊢
  omega

/-! ## The update of the blocks -/

structure BlocksUpdated (remote : FlatFile UInt8) (blocks : List Span) (fh fh' : InternalFh) : Prop where
  inside : ∀ i, Covers blocks i → fh'.data.byte i = remote.byte i
  size : fh'.data.size = fh.data.size
  outside : ∀ i, ¬ Covers blocks i → fh'.data.byte i = fh.data.byte i
  updated : ∀ i ∈ fh'.updated, fh'.data.byte i = remote.byte i ∨ i ∈ fh.updated

/-- No block has an effect on the ranges of an earlier one; and if the updated tree is cleared
because the master has another version, the modified bytes it gets were in it or are in a block. -/
structure BlocksApart (fh : InternalFh) (version : ℕ) (blocks : List Span) : Prop where
  apart : blocks.Pairwise (Apart fh.attr.size)
  cleared : fh.attr.version = fh.metadata.masterVersion → fh.metadata.masterVersion ≠ version →
    (∃ b ∈ blocks, b.start < fh.attr.size) → ∀ i ∈ fh.modified, i < fh.attr.size → i ∈ fh.updated ∨ Covers blocks i

def filled (size : ℕ) (b : UInt8) : FlatFile UInt8 where
  size := size
  byte i := if i < size then b else 0
  beyond i hi := by simp [hi]

theorem steady_clearFor {fh : InternalFh} {version : ℕ} (hattr : fh.attr.size = remote.size)
    (hdata : fh.data.size = remote.size) : Steady remote version (fh.clearFor version) := by
  obtain ⟨hd, hs, hv⟩ := clearFor_spec fh version
  exact ⟨hs.trans hattr, by rw [hd, hdata], hv⟩

theorem Served.range {size : ℕ} {out : List Chunk} (h : Served size blocks out []) {i : ℕ}
    (hi : i < size) (hcov : Covers blocks i) : ∃ c ∈ ranges size out, c.Has i := by
  obtain ⟨k, hk, hle, hlt⟩ := h.cover i hi hcov
  refine ⟨k.clip size, mem_ranges.mpr ⟨?_, k, hk, rfl⟩, hle, ?_⟩ <;> simp only [Chunk.clip] <;> omega

section
variable {α : Type} [DecidableEq α] {md5 : List UInt8 → α} {remote : FlatFile UInt8} {version : ℕ}
  {blocks : List Span} {env : UpdEnv α} {slow : Bool} {junk : ℕ → ℕ} {fh : InternalFh}

theorem pairwise_apart (hok : BlocksOk blocks) {size : ℕ} (h : blocks.Pairwise (Apart size)) :
    blocks.Pairwise fun a b => a.stop ≤ b.start ∧ Apart size a b := hok.sorted.and h

theorem chunkBatches_spec (junk : ℕ → ℕ) (hok : BlocksOk blocks) (hjunk : ∀ n, junk n < 2 ^ 32) :
    Chunked [] blocks (chunkBatches junk blocks).flatten ∧ Ahead (chunkBatches junk blocks).flatten [] := by
  have hch := chunkBatches_chunked hjunk hok
  exact ⟨hch, hch.ahead hok.sorted ⟨by simp, List.Pairwise.nil, by simp⟩⟩

theorem chunkBatches_served (hok : BlocksOk blocks) (hjunk : ∀ n, junk n < 2 ^ 32) {size : ℕ}
    (hapart : blocks.Pairwise (Apart size)) : Served size blocks (chunkBatches junk blocks).flatten [] := by
  have := (chunkBatches_chunked hjunk hok).served [] ⟨by simp, by simp, by simp⟩
    ⟨by simp, List.Pairwise.nil, by simp⟩ hok.lt hok.stop_le (pairwise_apart hok hapart)
  simpa using this

/-- The update of apart blocks, from the file that is left by the clearing on. -/
theorem updateFileBlocks_toward (fh : InternalFh) (slow : Bool) (junk : ℕ → ℕ) (hmd5 : Function.Injective md5) (hok : BlocksOk blocks)
    (hjunk : ∀ n, junk n < 2 ^ 32) (henv : Consistent md5 remote version env) (hattr : fh.attr.size = remote.size)
    (hdata : fh.data.size = remote.size) (hapart : blocks.Pairwise (Apart remote.size)) :
    let u := updateFileBlocks md5 env slow blocks junk fh
    (Flawless md5 remote version env slow → u.code = ZFS_OK) ∧
    (u.code = ZFS_OK →
      ∃ fh1, (if ∃ b ∈ blocks, b.start < remote.size then fh1 = fh.clearFor version else fh1 = fh) ∧
        Toward remote blocks fh1 u.fh ∧ ∀ i < remote.size, Covers blocks i → u.fh.data.byte i = remote.byte i) := by
  have hserved := chunkBatches_served hok hjunk hapart
  obtain ⟨-, hahead⟩ := chunkBatches_spec junk hok hjunk
  obtain ⟨hcodes, hclear⟩ := updateBatches_clearFor slow blocks henv (chunkBatches junk blocks) fh 0
  have hrun := updateBatches_rule slow (toward_rule (steady_clearFor hattr hdata) (pairwise_apart hok hapart)) hmd5 henv
    (inside_of_apart hserved hahead) hahead.sorted (s := ⟨ZFS_OK, fh.clearFor version, 0⟩) rfl (Toward.refl _ _ _)
    (fun c _ => by simp [Passed])
  refine ⟨fun h => hcodes.trans (hrun.flawless h), fun hcode => ?_⟩
  have hclear := hclear hcode
  by_cases hnil : ranges remote.size (chunkBatches junk blocks).flatten = []
  · -- no block has a byte of the file
    have hnone (i : ℕ) (hi : i < remote.size) : ¬ Covers blocks i := fun hcov => by
      obtain ⟨c, hc, -⟩ := hserved.range hi hcov
      simp [hnil] at hc
    rw [if_pos hnil] at hclear
    refine ⟨fh, ?_, ?_, fun i hi hcov => absurd hcov (hnone i hi)⟩
    · rw [if_neg]
      rintro ⟨b, hb, hlt⟩
      exact hnone b.start hlt ⟨b, hb, le_rfl, hok.lt b hb⟩
    · unfold updateFileBlocks
      rw [hclear]
      exact Toward.refl _ _ _
  · rw [if_neg hnil] at hclear
    have hprog := hrun.ok (hcodes.symm.trans hcode)
    refine ⟨fh.clearFor version, ?_, ?_, fun i hi hcov => ?_⟩
    · obtain ⟨c, hc⟩ := List.exists_mem_of_ne_nil _ hnil
      obtain ⟨⟨hpos, -, hend⟩, b, hb, hstart, -⟩ := inside_of_apart hserved hahead c hc
      rw [if_pos ⟨b, hb, by omega⟩]
    · unfold updateFileBlocks
      rw [hclear]
      exact hprog.inv
    · obtain ⟨c, hc, hci⟩ := hserved.range hi hcov
      unfold updateFileBlocks
      rw [hclear]
      exact hprog.done c hc i hci

theorem blocksUpdated_of_apart (fh : InternalFh) (hmd5 : Function.Injective md5) (hok : BlocksOk blocks)
    (hjunk : ∀ n, junk n < 2 ^ 32) (henv : Consistent md5 remote version env) (husers : 0 < fh.users)
    (hattr : fh.attr.size = remote.size) (hdata : fh.data.size = remote.size) (h : BlocksApart fh version blocks)
    (hcode : (updateFileBlocks md5 env slow blocks junk fh).code = ZFS_OK) :
    BlocksUpdated remote blocks fh (updateFileBlocks md5 env slow blocks junk fh).fh := by
  have hapart := h.apart
  rw [hattr] at hapart
  obtain ⟨fh1, hfh1, htoward, hbytes⟩ := (updateFileBlocks_toward fh slow junk hmd5 hok hjunk henv hattr hdata hapart).2 hcode
  have hdata1 : fh1.data = fh.data := by
    split_ifs at hfh1 with hb
    · rw [hfh1, (clearFor_spec fh version).1]
    · rw [hfh1]
  have hsize : (updateFileBlocks md5 env slow blocks junk fh).fh.data.size = fh.data.size := by
    rw [htoward.size, hdata1]
  have hbeyond (i : ℕ) (hi : remote.size ≤ i) :
      (updateFileBlocks md5 env slow blocks junk fh).fh.data.byte i = remote.byte i := by
    rw [beyond _ i (by omega), remote.beyond i hi]
  have hinside (i : ℕ) (hcov : Covers blocks i) :
      (updateFileBlocks md5 env slow blocks junk fh).fh.data.byte i = remote.byte i := by
    rcases lt_or_ge i remote.size with hi | hi
    · exact hbytes i hi hcov
    · exact hbeyond i hi
  refine ⟨hinside, hsize, fun i hcov => ?_, fun i hi => ?_⟩
  · rw [← hdata1]
    exact (htoward.byte i).resolve_right fun h => hcov h.1
  · rcases htoward.updated i hi with hi | hi
    · -- what was recorded at the start, or modified if the tree was cleared
      split_ifs at hfh1 with hb
      · rw [hfh1, clearFor] at hi
        split_ifs at hi with hclear
        · rw [mem_updateFileClearUpdatedTree1_updated husers] at hi
          rcases lt_or_ge i remote.size with hlt | hge
          · rcases h.cleared hclear.1 hclear.2 (by rwa [hattr]) i hi (by omega) with hu | hcov
            · exact Or.inr hu
            · exact Or.inl (hinside i hcov)
          · exact Or.inl (hbeyond i hge)
        · exact Or.inr hi
      · rw [hfh1] at hi
        exact Or.inr hi
    · exact Or.inl hi

/-- Of blocks that are not apart a byte stays as it was although the update succeeds. -/
theorem exists_stale_of_not_apart (fh : InternalFh) (remote : FlatFile UInt8) (version : ℕ) (hmd5 : Function.Injective md5) (hok : BlocksOk blocks)
    (hattr : fh.attr.size = remote.size) (hdata : fh.data.size = remote.size)
    (hnot : ¬ blocks.Pairwise (Apart remote.size)) :
    let u := updateFileBlocks md5 (honest md5 remote version) false blocks (fun _ => 0) fh
    u.code = ZFS_OK ∧ ∃ z < remote.size, Covers blocks z ∧ u.fh.data.byte z = fh.data.byte z := by
  obtain ⟨pre, a, b, post, rfl, hpre, hab⟩ := exists_not_apart hok.sorted hok.lt hnot
  have hsize : a.stop < remote.size := by
    unfold Apart at hab
    omega
  obtain ⟨hch, hahead⟩ := chunkBatches_spec (fun _ => 0) hok (by simp)
  obtain ⟨z, hz, hcov, hskips⟩ := hch.missed_of_not_apart hok hpre hab
  have henv := honest_consistent md5 remote version
  have hrun := updateBatches_rule false (stale_rule (steady_clearFor hattr hdata) hok (a := a) (by simp) hz) hmd5 henv
    (beside_of_skips hsize hskips hahead) hahead.sorted (s := ⟨ZFS_OK, fh.clearFor version, 0⟩) rfl
    ⟨rfl, rfl, rfl, rfl⟩ (fun c _ => by simp [Passed])
  have hflawless : Flawless md5 remote version (honest md5 remote version) false := ⟨rfl, rfl⟩
  obtain ⟨hcodes, hclear⟩ := updateBatches_clearFor false (pre ++ a :: b :: post) henv
    (chunkBatches (fun _ => 0) (pre ++ a :: b :: post)) fh 0
  have hcode := hcodes.trans (hrun.flawless hflawless)
  refine ⟨hcode, z, by omega, hcov, ?_⟩
  have hclear := hclear hcode
  unfold updateFileBlocks
  split_ifs at hclear
  · rw [hclear]
  · rw [hclear, (hrun.ok (hrun.flawless hflawless)).inv.byte, (clearFor_spec fh version).1]

/-- If clearing the updated tree adds a modified byte that is in no block, it is recorded although it
differs from the remote one. -/
theorem exists_recorded_of_cleared (fh : InternalFh) (remote : FlatFile UInt8) (hmd5 : Function.Injective md5) (hok : BlocksOk blocks) (husers : 0 < fh.users)
    (hattr : fh.attr.size = remote.size) (hdata : fh.data.size = remote.size)
    (hapart : blocks.Pairwise (Apart remote.size)) (hversion : fh.attr.version = fh.metadata.masterVersion)
    (hne : fh.metadata.masterVersion ≠ version) (hb : ∃ b ∈ blocks, b.start < remote.size) {i : ℕ}
    (hi : i ∈ fh.modified) (hcov : ¬ Covers blocks i) :
    let u := updateFileBlocks md5 (honest md5 remote version) false blocks (fun _ => 0) fh
    u.code = ZFS_OK ∧ i ∈ u.fh.updated ∧ u.fh.data.byte i = fh.data.byte i := by
  have henv := honest_consistent md5 remote version
  obtain ⟨hflawless, hok'⟩ := updateFileBlocks_toward fh false (fun _ => 0) hmd5 hok (by simp) henv hattr
    hdata hapart
  have hcode := hflawless ⟨rfl, rfl⟩
  obtain ⟨fh1, hfh1, htoward, -⟩ := hok' hcode
  rw [if_pos hb, clearFor, if_pos ⟨hversion, hne⟩] at hfh1
  refine ⟨hcode, htoward.grows i ?_, ?_⟩
  · rwa [hfh1, mem_updateFileClearUpdatedTree1_updated husers]
  · rw [(htoward.byte i).resolve_right fun h => hcov h.1, hfh1, updateFileClearUpdatedTree1_data]

end

/-- An opened file of eight bytes of which nothing is updated. -/
def eightMissing : InternalFh :=
  { synced [0, 0, 0, 0, 0, 0, 0, 0] with updated := IntervalTree.create }

end ZFS
