import ZlomekFS.Proofs.IntervalTree
import ZlomekFS.Spec.Synchronize
import ZlomekFS.Spec.Update

/-! What the operations on a cached file do to its interval trees. -/

namespace ZFS
open Spans IntervalTree

theorem not_mem_modified_of_blocks {fh : InternalFh} {start stop i : ℕ}
    (h : Covers (fh.getBlocksForUpdating start stop) i) : i ∉ fh.modified := by
  obtain ⟨b, hb, hbi⟩ := h
  rw [InternalFh.getBlocksForUpdating, complementVarray, List.mem_flatMap] at hb
  obtain ⟨x, -, hx⟩ := hb
  exact (fh.modified.complement_spec x.start x.stop).not_mem i ⟨b, hx, hbi⟩

theorem joinBlocks_covers {start stop : ℕ} {blocks : List Span} {i : ℕ} (hle : (joinBlocks start stop blocks).1 ≤ i)
    (hlt : i < (joinBlocks start stop blocks).2) : start ≤ i ∧ i < stop ∨ Covers blocks i := by
  induction blocks generalizing start stop with
  | nil => exact Or.inl ⟨hle, hlt⟩
  | cons x blocks ih =>
    rw [covers_cons]
    unfold joinBlocks at hle hlt
    split_ifs at hle hlt with hbefore hafter
    · exact (ih hle hlt).imp_right Or.inr
    · exact Or.inl ⟨hle, hlt⟩
    · -- the block touches the range, so nothing lies between them
      rcases ih hle hlt with hi | hi
      · simp only [Span.Has]
        omega
      · exact Or.inr (Or.inr hi)

namespace InternalFh

/-! ## Writing -/

theorem recordWrite_modified (fh : InternalFh) (offset written : ℕ) :
    (fh.recordWrite offset written).modified = fh.modified.insert (fh.writtenRange offset written).1
      (fh.writtenRange offset written).2 (fh.writtenRange_le offset written) := rfl

theorem mem_recordWrite_modified {fh : InternalFh} {offset written i : ℕ} :
    i ∈ (fh.recordWrite offset written).modified ↔ i ∈ fh.modified ∨
      (fh.writtenRange offset written).1 ≤ i ∧ i < (fh.writtenRange offset written).2 := by
  rw [recordWrite_modified, mem_insert]

theorem mem_recordWrite_updated {fh : InternalFh} {offset written i : ℕ} :
    i ∈ (fh.recordWrite offset written).updated ↔ i ∈ fh.updated ∨
      (fh.writtenRange offset written).1 ≤ i ∧ i < (fh.writtenRange offset written).2 :=
  mem_insert (h := fh.writtenRange_le offset written)

theorem zfsWrite_recorded (fh : InternalFh) (offset written : ℕ) :
    WriteRecorded offset written fh (fh.recordWrite offset written) := by
  have hrange := fh.writtenRange_bounds offset written
  constructor
  case contained =>
    intro i hle hlt
    exact ⟨mem_recordWrite_updated.mpr (Or.inr (by omega)), mem_recordWrite_modified.mpr (Or.inr (by omega))⟩
  case added =>
    intro i hout hnew
    have hi : (fh.writtenRange offset written).1 ≤ i ∧ i < (fh.writtenRange offset written).2 := by
      rw [mem_recordWrite_updated, mem_recordWrite_modified] at hnew
      tauto
    rcases joinBlocks_covers hi.1 hi.2 with hi | hi
    · exact Or.inr (by omega)
    · exact Or.inl (mem_intersection.mp hi).1
  case updated => exact fun i hi => mem_recordWrite_updated.mpr (Or.inl hi)
  case modified => exact fun i hi => mem_recordWrite_modified.mpr (Or.inl hi)
  case size => rfl

/-! ## Changes of the size -/

structure SameFile (fh fh' : InternalFh) : Prop where
  attr : fh'.attr = fh.attr
  data : fh'.data = fh.data
  users : fh'.users = fh.users
  localVersion : fh'.metadata.localVersion = fh.metadata.localVersion
  masterVersion : fh'.metadata.masterVersion = fh.metadata.masterVersion
  mode : fh'.metadata.mode = fh.metadata.mode
  uid : fh'.metadata.uid = fh.metadata.uid
  gid : fh'.metadata.gid = fh.metadata.gid

structure UpdatedOnly (fh fh' : InternalFh) : Prop extends SameFile fh fh' where
  modified : fh'.modified = fh.modified
  flag : fh'.metadata.modifiedTree = fh.metadata.modifiedTree

theorem SameFile.trans {a b c : InternalFh} (h : SameFile a b) (h' : SameFile b c) : SameFile a c :=
  ⟨h'.attr.trans h.attr, h'.data.trans h.data, h'.users.trans h.users,
    h'.localVersion.trans h.localVersion, h'.masterVersion.trans h.masterVersion, h'.mode.trans h.mode,
    h'.uid.trans h.uid, h'.gid.trans h.gid⟩

theorem UpdatedOnly.trans {a b c : InternalFh} (h : UpdatedOnly a b) (h' : UpdatedOnly b c) : UpdatedOnly a c :=
  ⟨h.toSameFile.trans h'.toSameFile, h'.modified.trans h.modified, h'.flag.trans h.flag⟩

theorem updatedOnly_setTree (fh : InternalFh) (t : IntervalTree) : UpdatedOnly fh { fh with updated := t } :=
  ⟨⟨rfl, rfl, rfl, rfl, rfl, rfl, rfl, rfl⟩, rfl, rfl⟩

theorem updatedOnly_extend (fh : InternalFh) (size : ℕ) : UpdatedOnly fh (fh.extendUpdated size) := by
  unfold extendUpdated
  split_ifs <;> exact ⟨⟨rfl, rfl, rfl, rfl, rfl, rfl, rfl, rfl⟩, rfl, rfl⟩

theorem updatedOnly_flush (fh : InternalFh) : UpdatedOnly fh (fh.flushDeleted .updated) := by
  unfold flushDeleted
  split_ifs <;> exact ⟨⟨rfl, rfl, rfl, rfl, rfl, rfl, rfl, rfl⟩, rfl, rfl⟩

theorem flushDeleted_same (fh : InternalFh) : SameFile fh (fh.flushDeleted .modified) := by
  unfold flushDeleted
  split_ifs <;> exact ⟨rfl, rfl, rfl, rfl, rfl, rfl, rfl, rfl⟩

theorem flushDeleted_updated (fh : InternalFh) : (fh.flushDeleted .modified).updated = fh.updated := by
  unfold flushDeleted
  split_ifs <;> rfl

theorem flushDeleted_nodes (fh : InternalFh) : (fh.flushDeleted .modified).modified.nodes = fh.modified.nodes := by
  unfold flushDeleted
  split_ifs <;> rfl

/-- The metadata do without the file of the modified tree only if the tree is empty. -/
def FlagOk (fh : InternalFh) : Prop := fh.metadata.modifiedTree = false → fh.modified.nodes = []

theorem flagOk_useless (fh : InternalFh) : (fh.deleteUselessIntervalFile .modified).FlagOk := by
  intro h
  have hflag : (!decide (fh.modified.nodes = [])) = false := h
  rw [Bool.not_eq_false'] at hflag
  exact of_decide_eq_true hflag

variable {fh : InternalFh}

theorem FlagOk.flushDeleted (h : fh.FlagOk) : (fh.flushDeleted .modified).FlagOk := by
  unfold InternalFh.flushDeleted
  split_ifs
  · exact flagOk_useless _
  · exact h

theorem FlagOk.deleteFrom {fh fh' : InternalFh} (h : fh.FlagOk) (size : ℕ)
    (hm : fh'.modified = fh.modified.deleteFrom size)
    (hf : fh'.metadata.modifiedTree = fh.metadata.modifiedTree) : fh'.FlagOk := by
  intro hflag
  rw [hm]
  exact deleteFrom_nil size (h (hf ▸ hflag))

theorem resizeTrees_spec (fh : InternalFh) (size : ℕ) :
    SameFile fh (fh.resizeTrees size) ∧
      (fh.resizeTrees size).modified.nodes = (fh.modified.deleteFrom size).nodes ∧
      (fh.FlagOk → (fh.resizeTrees size).FlagOk) := by
  have h1 := ((fh.updatedOnly_setTree (fh.updated.deleteFrom size)).trans (updatedOnly_extend _ size)).trans
    (updatedOnly_flush _)
  set fh1 := ({ fh with updated := fh.updated.deleteFrom size }.extendUpdated size).flushDeleted .updated
  have h2 := updatedOnly_extend { fh1 with modified := fh1.modified.deleteFrom size } size
  set fh2 := { fh1 with modified := fh1.modified.deleteFrom size }.extendUpdated size
  have hmod : fh2.modified = fh.modified.deleteFrom size := h2.modified.trans (by rw [h1.modified])
  have hsame : SameFile fh1 fh2 := ⟨h2.attr, h2.data, h2.users, h2.localVersion, h2.masterVersion, h2.mode,
    h2.uid, h2.gid⟩
  refine ⟨(h1.toSameFile.trans hsame).trans fh2.flushDeleted_same, ?_, fun h => ?_⟩
  · rw [← hmod]
    exact fh2.flushDeleted_nodes
  · exact (h.deleteFrom size hmod (h2.flag.trans h1.flag)).flushDeleted

theorem zfsSetattr_size_spec (fh : InternalFh) (size : ℕ) : let fh' := fh.zfsSetattr { size := some size }
    fh'.data = fh.data.truncate size ∧ fh'.users = fh.users ∧
      fh'.attr = { fh.attr with size := size, version := u64 (fh.metadata.localVersion + 1) } ∧
      fh'.metadata.localVersion = u64 (fh.metadata.localVersion + 1) ∧
      fh'.metadata.masterVersion = fh.metadata.masterVersion ∧
      (fh'.metadata.mode = fh.metadata.mode ∧ fh'.metadata.uid = fh.metadata.uid ∧
        fh'.metadata.gid = fh.metadata.gid) ∧
      (∀ i < size, i ∈ fh.modified → i ∈ fh'.modified) ∧ (fh.FlagOk → fh'.FlagOk) := by
  obtain ⟨hsame, hnodes, hflag⟩ := resizeTrees_spec
    ({ fh with data := fh.data.truncate size }.incLocalVersion true) size
  unfold zfsSetattr
  simp only [Option.isSome_some, if_true]
  split_ifs with husers
  · refine ⟨hsame.data, hsame.users, ?_, hsame.localVersion, hsame.masterVersion,
      ⟨hsame.mode, hsame.uid, hsame.gid⟩, fun i hi hm => ?_, hflag⟩
    · exact congrArg (fun v => { fh.attr with size := size, version := v }) hsame.localVersion
    · have hmem : i ∈ fh.modified.deleteFrom size := mem_deleteFrom.mpr ⟨hm, hi⟩
      exact (mem_def.mpr (hnodes ▸ hmem))
  · exact ⟨rfl, rfl, rfl, rfl, rfl, ⟨rfl, rfl, rfl⟩, fun i _ hm => hm, fun h => h⟩

theorem initUpdated_same (fh : InternalFh) : UpdatedOnly fh (fh.initIntervalTree .updated) := by
  unfold initIntervalTree
  simp only
  split_ifs <;> exact ⟨⟨rfl, rfl, rfl, rfl, rfl, rfl, rfl, rfl⟩, rfl, rfl⟩

theorem initModified_spec (h : fh.FlagOk) :
    SameFile fh (fh.initIntervalTree .modified) ∧ (fh.initIntervalTree .modified).FlagOk ∧
      ∀ i < fh.attr.size, i ∈ fh.modified → i ∈ (fh.initIntervalTree .modified).modified := by
  unfold initIntervalTree
  simp only
  split_ifs with hflag
  · refine ⟨⟨rfl, rfl, rfl, rfl, rfl, rfl, rfl, rfl⟩, flagOk_useless _, fun i hi hm => ?_⟩
    exact mem_def.mpr (mem_deleteFrom.mpr ⟨mem_add.mpr (Or.inr hm), hi⟩)
  · refine ⟨⟨rfl, rfl, rfl, rfl, rfl, rfl, rfl, rfl⟩, fun _ => rfl, fun i hi hm => ?_⟩
    rw [mem_def, h (by simpa using hflag)] at hm
    exact absurd hm (not_covers_nil i)

theorem loadIntervalTrees_spec (h : fh.FlagOk) :
    SameFile { fh with users := fh.users + 1 } fh.loadIntervalTrees ∧ fh.loadIntervalTrees.FlagOk ∧
      ∀ i < fh.attr.size, i ∈ fh.modified → i ∈ fh.loadIntervalTrees.modified := by
  unfold loadIntervalTrees
  simp only
  split_ifs with husers
  · exact ⟨⟨rfl, rfl, rfl, rfl, rfl, rfl, rfl, rfl⟩, h, fun i _ hm => hm⟩
  · have hu := initUpdated_same { fh with users := fh.users + 1 }
    have hflag : ({ fh with users := fh.users + 1 }.initIntervalTree .updated).FlagOk := fun hf => by
      rw [hu.flag] at hf
      rw [hu.modified]
      exact h hf
    obtain ⟨hsame, hok, hmem⟩ := initModified_spec hflag
    refine ⟨hu.toSameFile.trans hsame, hok, fun i hi hm => hmem i ?_ ?_⟩
    · rw [hu.attr]
      exact hi
    · rw [hu.modified]
      exact hm

theorem saveIntervalTrees_spec (h : fh.FlagOk) :
    SameFile { fh with users := fh.users - 1 } fh.saveIntervalTrees ∧ fh.saveIntervalTrees.FlagOk ∧
      fh.saveIntervalTrees.modified.nodes = fh.modified.nodes := by
  unfold saveIntervalTrees
  simp only
  split_ifs with husers
  · exact ⟨⟨rfl, rfl, rfl, rfl, rfl, rfl, rfl, rfl⟩, h, rfl⟩
  · exact ⟨⟨rfl, rfl, rfl, rfl, rfl, rfl, rfl, rfl⟩, flagOk_useless _, rfl⟩

theorem zfsOpenTrunc_spec (h : fh.FlagOk) : let fh' := fh.zfsOpenTrunc
    fh'.data = fh.data.truncate 0 ∧ fh'.FlagOk ∧
      fh'.attr = { fh.attr with version := u64 (fh.metadata.localVersion + 1) } ∧
      fh'.metadata.localVersion = u64 (fh.metadata.localVersion + 1) ∧
      fh'.metadata.masterVersion = fh.metadata.masterVersion ∧
      (fh'.metadata.mode = fh.metadata.mode ∧ fh'.metadata.uid = fh.metadata.uid ∧
        fh'.metadata.gid = fh.metadata.gid) ∧ ∀ i, i ∉ fh'.modified := by
  obtain ⟨hload, hflag, -⟩ := loadIntervalTrees_spec h
  set fh1 := { fh.loadIntervalTrees with data := fh.loadIntervalTrees.data.truncate 0 }.incLocalVersion true
    with hfh1
  have hu := (fh1.updatedOnly_setTree (fh1.updated.deleteFrom 0)).trans (updatedOnly_flush _)
  set fh2 := { fh1 with updated := fh1.updated.deleteFrom 0 }.flushDeleted .updated with hfh2
  have hopen : fh.zfsOpenTrunc = { fh2 with modified := fh2.modified.deleteFrom 0 }.flushDeleted .modified := rfl
  have hm := flushDeleted_same { fh2 with modified := fh2.modified.deleteFrom 0 }
  have hnodes := flushDeleted_nodes { fh2 with modified := fh2.modified.deleteFrom 0 }
  rw [← hopen] at hm hnodes
  have hlocal : fh1.metadata.localVersion = u64 (fh.metadata.localVersion + 1) := by
    rw [← hload.localVersion]
    rfl
  refine ⟨?_, ?_, ?_, ?_, ?_, ⟨?_, ?_, ?_⟩, fun i hi => ?_⟩
  · rw [hm.data, hu.data, hfh1, ← hload.data]
    rfl
  · rw [hopen]
    have hflag1 : fh1.FlagOk := hflag
    refine FlagOk.flushDeleted (FlagOk.deleteFrom hflag1 0 ?_ hu.flag)
    rw [hu.modified]
  · rw [hm.attr, hu.attr]
    have hattr : fh1.attr = { fh.loadIntervalTrees.attr with version := fh1.metadata.localVersion } := rfl
    rw [hattr, hload.attr, hlocal]
  · rw [hm.localVersion, hu.localVersion, hlocal]
  · exact hm.masterVersion.trans (hu.masterVersion.trans hload.masterVersion)
  · exact hm.mode.trans (hu.mode.trans hload.mode)
  · exact hm.uid.trans (hu.uid.trans hload.uid)
  · exact hm.gid.trans (hu.gid.trans hload.gid)
  · rw [mem_def, hnodes] at hi
    exact absurd (mem_deleteFrom.mp hi).2 (Nat.not_lt_zero i)

/-! ## Updating -/

theorem mem_updateFileClearUpdatedTree1_updated {fh : InternalFh} {version i : ℕ} (h : 0 < fh.users) :
    i ∈ (fh.updateFileClearUpdatedTree1 version).updated ↔ i ∈ fh.modified := by
  have hmem : i ∈ fh.updated.empty.add fh.modified ↔ i ∈ fh.modified := by simp
  unfold updateFileClearUpdatedTree1
  simp only
  generalize ite (fh.metadata.masterVersion < _) _ _ = localVersion
  split_ifs with hu
  · exact hmem
  · exact absurd h hu

theorem mem_appendInterval_updated {fh : InternalFh} {start stop i : ℕ} {h : start ≤ stop} :
    i ∈ (fh.appendInterval .updated start stop h).updated ↔ i ∈ fh.updated ∨ start ≤ i ∧ i < stop :=
  mem_insert (h := h)

theorem mem_adoptSize_updated {fh : InternalFh} {size faSize i : ℕ} :
    i ∈ (fh.adoptSize size faSize).updated ↔ i ∈ fh.updated ∧ i < faSize ∨ size ≤ i ∧ i < faSize := by
  have hflush (fh : InternalFh) (b : Bool) :
      i ∈ (if b then fh.flushIntervalTree .updated else fh).updated ↔ i ∈ fh.updated := by
    split_ifs <;> exact Iff.rfl
  unfold adoptSize
  simp only [hflush]
  split_ifs with h
  · rw [mem_appendInterval_updated, mem_deleteFrom]
  · have hnot : ¬ (size ≤ i ∧ i < faSize) := by omega
    rw [mem_deleteFrom, or_iff_left hnot]

theorem mem_markSame_updated {fh : InternalFh} {c : Chunk} {i : ℕ} :
    i ∈ (fh.markSame c).updated ↔ i ∈ fh.updated ∨ c.Has i := by
  unfold markSame Chunk.Has
  split_ifs with h
  · exact mem_appendInterval_updated
  · have : ¬ (c.offset ≤ i ∧ i < c.offset + c.length) := by omega
    simp [this]

theorem mem_markSame_modified {fh : InternalFh} {c : Chunk} {i : ℕ} :
    i ∈ (fh.markSame c).modified ↔ i ∈ fh.modified ∧ ¬ c.Has i := by
  unfold markSame Chunk.Has
  split_ifs with h
  · exact mem_delete (h := Nat.lt_add_of_pos_right h)
  · have : ¬ (c.offset ≤ i ∧ i < c.offset + c.length) := by omega
    simp [this]

end InternalFh

theorem takeWhile_drop_advance (blocks : List Span) (offset j : ℕ) :
    (blocks.drop (advance blocks offset j)).takeWhile (·.stop < offset) = [] := by
  unfold advance
  rw [← List.drop_drop]
  generalize blocks.drop j = l
  induction l with
  | nil => rfl
  | cons x l ih =>
    by_cases hx : x.stop < offset
    · rw [List.takeWhile_cons_of_pos (by simpa using hx), List.length_cons, List.drop_succ_cons]
      exact ih
    · rw [List.takeWhile_cons_of_neg (by simpa using hx)]
      simp [hx]

end ZFS
