import ZlomekFS.Proofs.IntervalRecords
import ZlomekFS.Proofs.IntervalTree

/-! The interval files are safe. Between two calls, what a load would rebuild from the interval file, the
flag and the size is part of the updated tree and has all of the modified one, even while the descriptor
of the updated tree leads to a removed file; a flush makes it exact. This needs that `tree->size` of the
modified tree does not wrap around: with 2^32 nodes the tree is taken for an empty one. -/

namespace ZFS
open Spans Trees Bytes StoredTree

/-! ## The tree and its file -/

/-- What a load makes of the flag and of a file with these records: without the flag the whole file is
updated and nothing is modified. -/
def Rebuilt (size : ℕ) (type : TreeType) (flag : Bool) (records : List Span) (x : ℕ) : Prop :=
  x < size ∧ if flag then Covers records x else type = .updated

section Useless
variable {t : IntervalTreeDef} {u : IntervalTree} {size : ℕ}

theorem mem_of_useless_updated (h : Sound t u) (hu : useless size t .updated = true) {x : ℕ}
    (hx : x < size) : x ∈ u := by
  rw [← h.covers]
  simp only [useless, Bool.and_eq_true] at hu
  cases hs : t.splay with
  | nil => simp [hs] at hu
  | node root left right =>
    simp only [hs, Bool.and_eq_true, beq_iff_eq] at hu
    refine ⟨root, by simp, ?_, ?_⟩
    · rw [hu.2.1]; exact Nat.zero_le x
    · rwa [hu.2.2]

/-- `tree->size` tells an empty tree as long as it does not wrap around. -/
theorem useless_modified_iff (h : Sound t u) (hlen : u.nodes.length < 2 ^ 32) :
    useless size t .modified = true ↔ u.nodes = [] := by
  rw [useless, beq_iff_eq, h.refines.rep.size, u32, Nat.mod_eq_of_lt hlen, List.length_eq_zero_iff]

end Useless

namespace StoredTree

structure Recorded (s : StoredTree) (records : List Span) : Prop where
  file : s.file.getD [] = records.flatMap intervalBytes
  fits : ∀ r ∈ records, r.start ≤ r.stop ∧ r.stop ≤ UINT64_MAX
  opened : s.fd = .file → s.file.isSome

/-- The tree is in memory, and the interval file, the flag and the descriptor are safe: a load would find
no offset updated that is not, and every offset of the file modified that is. -/
structure Loaded (size : ℕ) (type : TreeType) (s : StoredTree) (t : IntervalTreeDef) (u : IntervalTree)
    (records : List Span) : Prop where
  tree : s.tree = some t
  sound : Sound t u
  recorded : s.Recorded records
  updated : type = .updated → ∀ x, Rebuilt size type s.flag records x → x ∈ u
  modified : type = .modified → ∀ x < size, x ∈ u → Rebuilt size type s.flag records x
  open_modified : type = .modified → s.fd ≠ .removed
  small : type = .modified → u.nodes.length < 2 ^ 32

section Loaded
variable {size : ℕ} {type : TreeType} {s : StoredTree} {t : IntervalTreeDef} {u : IntervalTree}
  {records : List Span}

/-- A flush makes the file, the flag and the size say what the tree says. -/
theorem flush_spec (size : ℕ) (htree : s.tree = some t) (h : Sound t u) (hlen : type = .modified → u.nodes.length < 2 ^ 32) :
    ∃ s' u' records', s.flush size type = some s' ∧ s'.Loaded size type { t with deleted := false } u' records' ∧
      (∀ x, x ∈ u' ↔ x ∈ u) ∧ ∀ x, Rebuilt size type s'.flag records' x ↔ x < size ∧ x ∈ u := by
  have hun := h.unmark
  unfold flush deleteUselessIntervalFile
  rw [htree, Option.map_some]
  by_cases hu : useless size t type = true
  · simp only [hu, if_true]
    have hexact : ∀ x, Rebuilt size type false [] x ↔ x < size ∧ x ∈ u := by
      intro x
      refine and_congr_right fun hx => ?_
      cases type with
      | updated => simp [mem_of_useless_updated h hu hx]
      | modified =>
        have hnil := (useless_modified_iff h (hlen rfl)).mp hu
        simp [IntervalTree.mem_def, hnil]
    refine ⟨_, _, [], rfl, ⟨rfl, hun, ⟨rfl, by simp, by simp [remove]⟩, fun _ x hx => ((hexact x).mp hx).2,
      fun _ x hx hm => (hexact x).mpr ⟨hx, hm⟩, fun _ => by simp [remove], hlen⟩, fun x => Iff.rfl, hexact⟩
  · simp only [hu, Bool.false_eq_true, if_false]
    have hexact : ∀ x, Rebuilt size type true u.nodes x ↔ x < size ∧ x ∈ u := fun x => Iff.rfl
    refine ⟨_, _, u.nodes, rfl, ⟨rfl, hun, ⟨?_, fun r hr => ⟨u.separated.le r hr, h.stop_le r hr⟩, fun _ => rfl⟩,
      fun _ x hx => hx.2, fun _ x hx hm => ⟨hx, hm⟩, fun _ => by simp, hlen⟩, fun x => Iff.rfl, hexact⟩
    rw [Option.getD_some, intervalTreeWrite_eq, h.refines.rep.nodes]

/-- Even where a flush errs, what it was called for is in memory. -/
theorem flush_tree (size : ℕ) (type : TreeType) (htree : s.tree = some t) :
    ∃ s', s.flush size type = some s' ∧ s'.tree = some { t with deleted := false } := by
  unfold flush
  rw [htree, Option.map_some]
  dsimp only
  split_ifs
  · exact ⟨_, rfl, rfl⟩
  · exact ⟨_, rfl, rfl⟩

theorem mem_offsets (htree : s.tree = some t) (h : Sound t u) {x : ℕ} : x ∈ s.offsets ↔ x ∈ u := by
  rw [← h.covers]
  constructor
  · rintro ⟨t', ht', hx⟩
    rw [htree] at ht'
    exact Option.some.inj ht' ▸ hx
  · exact fun hx => ⟨t, htree, hx⟩

theorem Recorded.open (h : s.Recorded records) : s.openIntervalFile.Recorded records := by
  unfold openIntervalFile
  split_ifs
  · exact ⟨h.file, h.fits, fun _ => rfl⟩
  · exact h

theorem Recorded.write (h : s.Recorded records) {r : Span} (hr : r.start ≤ r.stop ∧ r.stop ≤ UINT64_MAX) :
    (s.fullWrite (intervalBytes r)).Recorded (if s.fd = .file then records ++ [r] else records) := by
  unfold fullWrite
  split_ifs with hfd
  · refine ⟨?_, ?_, fun _ => by simpa using h.opened hfd⟩
    · obtain ⟨file, hfile⟩ := Option.isSome_iff_exists.mp (h.opened hfd)
      have hrec := h.file
      rw [hfile, Option.getD_some] at hrec
      simp [hfile, hrec]
    · intro r' hr'
      rcases List.mem_append.mp hr' with hr' | hr'
      · exact h.fits r' hr'
      · rw [List.mem_singleton.mp hr']; exact hr
  · exact h

theorem fullWrite_fd (buffer : List UInt8) : (s.fullWrite buffer).fd = s.fd := by
  unfold fullWrite
  split_ifs <;> rfl

/-- What a load would find among the records is updated, whether they count now or not. -/
theorem Loaded.covers_updated (h : s.Loaded size type t u records) (htype : type = .updated) {x : ℕ} (hx : x < size)
    (hr : Covers records x) : x ∈ u := by
  refine h.updated htype x ⟨hx, ?_⟩
  split_ifs
  · exact hr
  · exact htype

/-- Every modified offset of the file is among the records, and counts. -/
theorem Loaded.covers_modified (h : s.Loaded size type t u records) (htype : type = .modified) {x : ℕ} (hx : x < size)
    (hm : x ∈ u) : Covers records x := by
  have hr := (h.modified htype x hx hm).2
  split_ifs at hr
  · exact hr
  · exact absurd (htype.symm.trans hr) (by decide)

theorem openIntervalFile_fd : s.openIntervalFile.fd = .file ∨ s.openIntervalFile.fd = .removed ∧ s.fd = .removed := by
  unfold openIntervalFile
  split_ifs with hfd
  · exact Or.inl rfl
  · cases hs : s.fd with
    | closed => exact absurd hs hfd
    | file => exact Or.inl rfl
    | removed => exact Or.inr ⟨rfl, rfl⟩

theorem openIntervalFile_tree : s.openIntervalFile.tree = s.tree := by
  unfold openIntervalFile
  split_ifs <;> rfl

theorem fullWrite_tree (buffer : List UInt8) : (s.fullWrite buffer).tree = s.tree := by
  unfold fullWrite
  split_ifs <;> rfl

theorem Loaded.append (h : s.Loaded size type t u records) {start stop : ℕ} (hle : start ≤ stop)
    (hstop : stop ≤ UINT64_MAX) (hsmall : type = .modified → u.nodes.length + 1 < 2 ^ 32) :
    ∃ s' t' u' records', s.appendInterval size type start stop = some s' ∧ s'.Loaded size type t' u' records' ∧
      ∀ x, x ∈ u' ↔ x ∈ u ∨ start ≤ x ∧ x < stop := by
  obtain ⟨t', u', hrun, hs', hmem, hlen, hne⟩ := h.sound.insert hle hstop
  have hlen' : type = .modified → u'.nodes.length < 2 ^ 32 := fun htype => by have := hsmall htype; omega
  have hopen := Recorded.open (s := { s with tree := some t' }) ⟨h.recorded.file, h.recorded.fits, h.recorded.opened⟩
  have hfd := openIntervalFile_fd (s := { s with tree := some t' })
  have hwrite := hopen.write (r := ⟨start, stop⟩) ⟨hle, hstop⟩
  have htree : (openIntervalFile { s with tree := some t' }).tree = some t' := openIntervalFile_tree
  unfold appendInterval
  rw [h.tree]
  dsimp only [Option.bind_eq_bind, Option.bind_some]
  rw [hrun]
  dsimp only [Option.bind_some]
  generalize openIntervalFile { s with tree := some t' } = s1 at hfd hwrite htree ⊢
  have hfd2 := s1.fullWrite_fd (intervalBytes ⟨start, stop⟩)
  have htree2 := (s1.fullWrite_tree (intervalBytes ⟨start, stop⟩)).trans htree
  generalize s1.fullWrite (intervalBytes ⟨start, stop⟩) = s2 at hwrite hfd2 htree2 ⊢
  unfold deleteUselessIntervalFile
  by_cases hu : useless size t' type = true
  · -- only the updated tree can be useless now; the descriptor goes on leading to the removed file
    have htype : type = .updated := by
      cases type with
      | updated => rfl
      | modified => exact absurd ((useless_modified_iff hs' (hlen' rfl)).mp hu) hne
    rw [if_pos hu]
    refine ⟨_, t', u', [], rfl, ⟨htree2, hs', ⟨rfl, by simp, ?_⟩, fun _ x hx => ?_, ?_, ?_, hlen'⟩, hmem⟩
    · simp only [remove]
      split_ifs with hfile
      · exact fun hcon => by cases hcon
      · exact fun hcon => absurd hcon hfile
    · exact mem_of_useless_updated hs' (htype ▸ hu) hx.1
    · exact fun hcon => absurd (htype.symm.trans hcon) (by decide)
    · exact fun hcon => absurd (htype.symm.trans hcon) (by decide)
  · rw [if_neg hu]
    refine ⟨_, t', u', _, rfl, ⟨htree2, hs', ⟨hwrite.file, hwrite.fits, hwrite.opened⟩, fun htype x hx => ?_,
      fun htype x hx hm => ⟨hx, ?_⟩, fun htype => ?_, hlen'⟩, hmem⟩
    · -- a record of the file is an old one or the new one
      obtain ⟨hx, hr⟩ := hx
      rw [if_pos rfl] at hr
      rw [hmem]
      split_ifs at hr
      · rcases (covers_append ..).mp hr with hr | hr
        · exact Or.inl (h.covers_updated htype hx hr)
        · exact Or.inr (by simpa [Span.Has] using hr)
      · exact Or.inl (h.covers_updated htype hx hr)
    · have hfile : s1.fd = .file := hfd.resolve_right fun hcon => h.open_modified htype hcon.2
      rw [if_pos rfl, if_pos hfile, covers_append]
      rcases (hmem x).mp hm with hm | hm
      · exact Or.inl (h.covers_modified htype hx hm)
      · exact Or.inr (by simpa [Span.Has] using hm)
    · have hfile : s1.fd = .file := hfd.resolve_right fun hcon => h.open_modified htype hcon.2
      dsimp only
      rw [hfd2, hfile]
      decide

theorem delete_eq {t' : IntervalTreeDef} {l : List Span} (htree : s.tree = some t)
    (hrun : l.foldlM (fun (t : IntervalTreeDef) r => t.delete r.start r.stop) t = some t') :
    s.delete l = some { s with tree := some t' } := by
  unfold delete
  rw [htree]
  dsimp only [Option.bind_eq_bind, Option.bind_some]
  rw [hrun]
  rfl

/-- A deletion that its caller flushes if it changed something. -/
theorem Loaded.delete_flush (h : s.Loaded size type t u records) {l : List Span}
    (hl : ∀ r ∈ l, r.start < r.stop ∧ r.stop ≤ UINT64_MAX)
    (hsmall : type = .modified → u.nodes.length + l.length < 2 ^ 32) :
    ∃ s' t' u' records', (s.delete l).bind (flushDeleted size type) = some s' ∧ s'.Loaded size type t' u' records' ∧
      ∀ x, x ∈ u' ↔ x ∈ u ∧ ¬ Covers l x := by
  obtain ⟨t', u', hrun, hs', hmem, hlen, hsame⟩ := h.sound.deleteAll hl
  have hlen' : type = .modified → u'.nodes.length < 2 ^ 32 := fun htype => by have := hsmall htype; omega
  rw [delete_eq h.tree hrun, Option.bind_some, flushDeleted, Option.bind_some]
  split_ifs with hdel
  · obtain ⟨s', u'', records', hflush, hloaded, hmem', -⟩ := flush_spec (s := { s with tree := some t' }) size rfl hs' hlen'
    exact ⟨s', _, u'', records', hflush, hloaded, fun x => (hmem' x).trans (hmem x)⟩
  · -- nothing was deleted, so the file is still right
    obtain ⟨-, heq⟩ := hsame (by simpa using hdel)
    refine ⟨_, t', u', records, rfl, ⟨rfl, hs', ⟨h.recorded.file, h.recorded.fits, h.recorded.opened⟩,
      fun htype x hx => (heq x).mpr (h.updated htype x hx),
      fun htype x hx hm => h.modified htype x hx ((heq x).mp hm), h.open_modified, hlen'⟩, hmem⟩

/-- Without a flush the file tells more modified offsets than there are. -/
theorem Loaded.deleteModified (h : s.Loaded size .modified t u records) {l : List Span}
    (hl : ∀ r ∈ l, r.start < r.stop ∧ r.stop ≤ UINT64_MAX) (hsmall : u.nodes.length + l.length < 2 ^ 32) :
    ∃ s' t' u', s.delete l = some s' ∧ s'.Loaded size .modified t' u' records ∧
      ∀ x, x ∈ u' ↔ x ∈ u ∧ ¬ Covers l x := by
  obtain ⟨t', u', hrun, hs', hmem, hlen, -⟩ := h.sound.deleteAll hl
  exact ⟨{ s with tree := some t' }, t', u', delete_eq h.tree hrun,
    ⟨rfl, hs', ⟨h.recorded.file, h.recorded.fits, h.recorded.opened⟩, fun htype => absurd htype (by decide),
      fun htype x hx hm => h.modified htype x hx ((hmem x).mp hm).1, h.open_modified, fun _ => by omega⟩, hmem⟩

theorem Loaded.close (h : s.Loaded size type t u records) : Loaded size type { s with fd := .closed } t u records :=
  ⟨h.tree, h.sound, ⟨h.recorded.file, h.recorded.fits, fun hcon => by cases hcon⟩, h.updated, h.modified,
    fun _ => by simp, h.small⟩

section
variable (h : s.Recorded records)

include h

theorem Recorded.readIntervalFile :
    ∃ t u, readIntervalFile s.file = some t ∧ Sound t u ∧ (∀ x, x ∈ u ↔ Covers records x) ∧
      u.nodes.length ≤ records.length := by
  obtain ⟨t, u, hrun, ht, hmem, hlen⟩ := sound_create.insertAll h.fits
  refine ⟨t, u, ?_, ht, fun x => ?_, ?_⟩
  · have hfile := h.file
    cases hs : s.file with
    | none =>
      rw [hs, Option.getD_none, eq_comm, List.flatMap_eq_nil_iff] at hfile
      obtain rfl : records = [] := List.eq_nil_iff_forall_not_mem.mpr fun r hr => by
        have := congrArg List.length (hfile r hr)
        rw [length_intervalBytes] at this
        exact absurd this (by decide)
      exact hrun
    | some file =>
      rw [hs, Option.getD_some] at hfile
      have hlen := length_flatMap_intervalBytes records
      rw [← hfile] at hlen
      have hdiv : file.length / INTERVAL_SIZE = records.length := by
        rw [hlen]
        exact Nat.mul_div_cancel _ (by decide)
      rw [StoredTree.readIntervalFile, if_neg (by rw [hlen, Nat.mul_mod_left]; simp)]
      dsimp only
      rw [hdiv, hfile, intervalTreeRead_eq h.fits _ le_rfl]
      exact hrun
  · rw [hmem x]
    exact or_iff_right (IntervalTree.not_mem_create x)
  · rwa [show IntervalTree.create.nodes.length = 0 from rfl, Nat.zero_add] at hlen

/-- With the flag, a load reads the file and clips it to the size. -/
theorem Recorded.init_flag (type : TreeType) (hflag : s.flag = true) (hsize : size < UINT64_MAX) :
    ∃ t u, s.initIntervalTree size type = flush size type { s with tree := some t } ∧ Sound t u ∧
      (∀ x, x ∈ u ↔ Rebuilt size type s.flag records x) ∧ u.nodes.length ≤ records.length + 1 := by
  obtain ⟨t1, u1, hrun1, h1, hmem1, hlen1⟩ := h.readIntervalFile
  obtain ⟨t2, u2, hrun2, h2, hmem2, hlen2, -⟩ := h1.delete hsize
  refine ⟨t2, u2, ?_, h2, fun x => ?_, by omega⟩
  · unfold initIntervalTree
    rw [if_pos hflag, hrun1]
    dsimp only [Option.bind_eq_bind, Option.bind_some]
    rw [hrun2]
    rfl
  · rw [hmem2, hmem1, Rebuilt, if_pos hflag]
    constructor
    · rintro ⟨⟨r, hr, hx⟩, hnot⟩
      have := (h.fits r hr).2
      have := hx.2
      exact ⟨by omega, r, hr, hx⟩
    · rintro ⟨hx, hr⟩
      exact ⟨hr, by omega⟩

/-- Without it, the tree is the one that needs no file. -/
theorem Recorded.init_noFlag (type : TreeType) (hflag : s.flag = false) (hsize : size < UINT64_MAX)
    (hfd : s.fd = .closed) :
    ∃ s' t u, s.initIntervalTree size type = some s' ∧ s'.Loaded size type t u records ∧
      ∀ x, x ∈ u ↔ Rebuilt size type s.flag records x := by
  have hrec : ∀ t, Recorded { s with tree := some t } records := fun _ => ⟨h.file, h.fits, h.opened⟩
  have hrebuilt : ∀ x, Rebuilt size type s.flag records x ↔ x < size ∧ type = .updated := by
    intro x
    rw [Rebuilt, hflag, if_neg Bool.false_ne_true]
  unfold initIntervalTree
  rw [if_neg (by simp [hflag])]
  cases type with
  | updated =>
    obtain ⟨t, u, hrun, ht, hmem, -⟩ := sound_create.insert (Nat.zero_le size) hsize.le
    have hiff : ∀ x, x ∈ u ↔ Rebuilt size .updated s.flag records x := by
      intro x
      rw [hmem x, hrebuilt x]
      simp
    dsimp only
    rw [hrun]
    exact ⟨_, t, u, rfl, ⟨rfl, ht, hrec t, fun _ x hx => (hiff x).mpr hx, fun _ x _ hm => (hiff x).mp hm,
      fun hcon => absurd hcon (by decide), fun hcon => absurd hcon (by decide)⟩, hiff⟩
  | modified =>
    have hiff : ∀ x, x ∈ IntervalTree.create ↔ Rebuilt size .modified s.flag records x := by
      intro x
      rw [hrebuilt x]
      simp
    exact ⟨_, .create, .create, rfl, ⟨rfl, sound_create, hrec _, fun _ x hx => (hiff x).mpr hx,
      fun _ x _ hm => (hiff x).mp hm, fun _ => by simp [hfd], fun _ => by decide⟩, hiff⟩

/-- A load rebuilds what the flag and the file say; that it is safe needs that the modified tree is small. -/
theorem Recorded.init (type : TreeType) (hsize : size < UINT64_MAX) (hfd : s.fd = .closed) :
    ∃ s', s.initIntervalTree size type = some s' ∧ (∀ x, x ∈ s'.offsets ↔ Rebuilt size type s.flag records x) ∧
      ((type = .modified → s.flag = true → records.length + 1 < 2 ^ 32) →
        ∃ t u records', s'.Loaded size type t u records') := by
  cases hflag : s.flag with
  | true =>
    obtain ⟨t, u, hrun, hs, hmem, hlen⟩ := h.init_flag type hflag hsize
    obtain ⟨s', hflush, htree⟩ := flush_tree (s := { s with tree := some t }) size type rfl
    refine ⟨s', hrun.trans hflush, fun x => (mem_offsets htree hs.unmark).trans (hflag ▸ hmem x), fun hsmall => ?_⟩
    obtain ⟨s1, u1, records1, hflush1, hloaded, -⟩ := flush_spec (s := { s with tree := some t }) size rfl hs
      fun htype => by have := hsmall htype rfl; omega
    obtain rfl : s1 = s' := Option.some.inj (hflush1.symm.trans hflush)
    exact ⟨_, u1, records1, hloaded⟩
  | false =>
    obtain ⟨s', t, u, hrun, hloaded, hmem⟩ := h.init_noFlag type hflag hsize hfd
    exact ⟨s', hrun, fun x => (mem_offsets hloaded.tree hloaded.sound).trans (hflag ▸ hmem x),
      fun _ => ⟨t, u, records, hloaded⟩⟩

end

theorem Loaded.free (h : s.Loaded size type t u records) :
    ∃ s' records', s.freeIntervalTree size type = some s' ∧ s'.tree = none ∧ s'.fd = .closed ∧
      s'.Recorded records' ∧ ∀ x, Rebuilt size type s'.flag records' x ↔ x < size ∧ x ∈ s.offsets := by
  obtain ⟨s', u', records', hflush, hloaded, -, hexact⟩ := flush_spec size h.tree h.sound h.small
  refine ⟨{ s' with tree := none, fd := .closed }, records', by rw [freeIntervalTree, hflush]; rfl, rfl, rfl,
    ⟨hloaded.recorded.file, hloaded.recorded.fits, fun hcon => by cases hcon⟩, fun x => ?_⟩
  rw [mem_offsets h.tree h.sound]
  exact hexact x

end Loaded
end StoredTree

/-! ## Runs -/

namespace IntervalFh

/-- A file handle without interval trees in memory; the interval files hold any intervals. -/
structure Stored (fh : IntervalFh) : Prop where
  size_lt : fh.size < UINT64_MAX
  users : fh.users = 0
  tree : ∀ type, (fh.trees type).tree = none
  fd : ∀ type, (fh.trees type).fd = .closed
  recorded : ∀ type, ∃ records, (fh.trees type).Recorded records

structure InUse (fh : IntervalFh) : Prop where
  size_lt : fh.size < UINT64_MAX
  users_pos : 0 < fh.users
  users_lt : fh.users < 2 ^ 32
  loaded : ∀ type, ∃ t u records, (fh.trees type).Loaded fh.size type t u records

def offsets (fh : IntervalFh) (type : TreeType) : Set ℕ := (fh.trees type).offsets

def modifiedNodes (fh : IntervalFh) : ℕ := (fh.trees .modified).tree.elim 0 (·.splay.numNodes)

/-- The number of records that a load reads for the modified tree. -/
def modifiedRecords (fh : IntervalFh) : ℕ :=
  if (fh.trees .modified).flag then ((fh.trees .modified).file.getD []).length / INTERVAL_SIZE else 0

/-- The call cannot bring the modified tree to 2^32 nodes, nor `interval_tree_users` to 2^32. -/
def Small (fh : IntervalFh) : IntervalCall → Prop
  | .append .modified _ _ => fh.modifiedNodes + 1 < 2 ^ 32
  | .delete .modified intervals | .deleteModified intervals => fh.modifiedNodes + intervals.length < 2 ^ 32
  | .load => if fh.users = 0 then fh.modifiedRecords + 1 < 2 ^ 32 else fh.users + 1 < 2 ^ 32
  | _ => True

instance (fh : IntervalFh) : DecidablePred fh.Small
  | .append .modified _ _ | .delete .modified _ | .deleteModified _ => Nat.decLt _ _
  | .load => inferInstanceAs (Decidable (ite _ _ _))
  | .append .updated _ _ | .delete .updated _ | .empty _ | .flush _ | .close _ | .save => isTrue trivial

section Steps
variable {fh fh' : IntervalFh}

theorem on_eq_some {type : TreeType} {f : StoredTree → Option StoredTree} (h : fh.on type f = some fh') :
    ∃ s, f (fh.trees type) = some s ∧ fh' = { fh with trees := Function.update fh.trees type s } := by
  obtain ⟨s, hs, rfl⟩ := Option.map_eq_some_iff.mp h
  exact ⟨s, hs, rfl⟩

theorem InUse.update (h : fh.InUse) {type : TreeType} {s : StoredTree}
    (hs : ∃ t u records, s.Loaded fh.size type t u records) :
    InUse { fh with trees := Function.update fh.trees type s } := by
  refine ⟨h.size_lt, h.users_pos, h.users_lt, fun type' => ?_⟩
  by_cases heq : type' = type
  · subst heq
    simpa using hs
  · simpa [heq] using h.loaded type'

theorem modifiedNodes_eq {t : IntervalTreeDef} {u : IntervalTree} {records : List Span}
    (hm : (fh.trees .modified).Loaded fh.size .modified t u records) : fh.modifiedNodes = u.nodes.length := by
  rw [modifiedNodes, hm.tree, Option.elim_some, ← length_inorder, hm.sound.refines.rep.nodes]

/-- Whatever is done to one tree of a file handle in use, it is enough that it leaves the tree loaded. -/
theorem InUse.on (h : fh.InUse) {type : TreeType} {f : StoredTree → Option StoredTree}
    (hf : ∀ {t u records}, (fh.trees type).Loaded fh.size type t u records →
      ∃ s t' u' records', f (fh.trees type) = some s ∧ s.Loaded fh.size type t' u' records')
    (hrun : fh.on type f = some fh') : fh'.InUse := by
  obtain ⟨t, u, records, hl⟩ := h.loaded type
  obtain ⟨s', t', u', records', hs', hl'⟩ := hf hl
  obtain ⟨s, hs, rfl⟩ := on_eq_some hrun
  rw [hs', Option.some.injEq] at hs
  exact h.update ⟨t', u', records', hs ▸ hl'⟩

theorem update_update (trees s : TreeType → StoredTree) :
    Function.update (Function.update trees .updated (s .updated)) .modified (s .modified) = s := by
  funext type
  cases type <;> rfl

theorem load_eq {s : TreeType → StoredTree} (hu : fh.users = 0)
    (hs : ∀ type, (fh.trees type).initIntervalTree fh.size type = some (s type)) :
    fh.loadIntervalTrees = some { fh with users := 1, trees := s } := by
  unfold loadIntervalTrees
  rw [hu]
  have hupdated := hs .updated
  have hmodified := hs .modified
  simp only [IntervalFh.on, u32, hupdated]
  simp [hmodified, update_update]

theorem save_eq {s : TreeType → StoredTree} (hu : fh.users = 1)
    (hs : ∀ type, (fh.trees type).freeIntervalTree fh.size type = some (s type)) :
    fh.saveIntervalTrees = some { fh with users := 0, trees := s } := by
  unfold saveIntervalTrees
  rw [hu]
  have hupdated := hs .updated
  have hmodified := hs .modified
  simp only [IntervalFh.on, u32, hupdated]
  simp [hmodified, update_update]

theorem Stored.load (h : fh.Stored) {records : TreeType → List Span}
    (hr : ∀ type, (fh.trees type).Recorded (records type)) :
    ∃ fh', fh.loadIntervalTrees = some fh' ∧
      (∀ type x, x ∈ fh'.offsets type ↔ Rebuilt fh.size type (fh.trees type).flag (records type) x) ∧
      (fh.modifiedRecords + 1 < 2 ^ 32 → fh'.InUse) := by
  have hinit := fun type => (hr type).init type h.size_lt (h.fd type)
  choose s hs hoff hloaded using hinit
  refine ⟨_, load_eq h.users hs, hoff, fun hsmall => ⟨h.size_lt, Nat.one_pos, by norm_num, fun type => ?_⟩⟩
  refine hloaded type fun htype hflag => ?_
  subst htype
  rwa [modifiedRecords, if_pos hflag, (hr .modified).file, length_flatMap_intervalBytes,
    Nat.mul_div_cancel _ (by decide)] at hsmall

theorem InUse.save (h : fh.InUse) (hu : fh.users = 1) :
    ∃ fh', ∃ records : TreeType → List Span, fh.saveIntervalTrees = some fh' ∧ fh'.Stored ∧ fh'.size = fh.size ∧
      (∀ type, (fh'.trees type).Recorded (records type)) ∧
      ∀ type x, Rebuilt fh.size type (fh'.trees type).flag (records type) x ↔ x < fh.size ∧ x ∈ fh.offsets type := by
  have hfree : ∀ type, ∃ s' records', (fh.trees type).freeIntervalTree fh.size type = some s' ∧ s'.tree = none ∧
      s'.fd = .closed ∧ s'.Recorded records' ∧
      ∀ x, Rebuilt fh.size type s'.flag records' x ↔ x < fh.size ∧ x ∈ fh.offsets type := by
    intro type
    obtain ⟨t, u, records, hl⟩ := h.loaded type
    exact hl.free
  choose s records hs htree hfd hr hexact using hfree
  exact ⟨_, records, save_eq hu hs, ⟨h.size_lt, rfl, htree, hfd, fun type => ⟨_, hr type⟩⟩, rfl, hr, hexact⟩

/-- While there are other users, `save_interval_trees` and `load_interval_trees` only count them. -/
theorem InUse.save_other (h : fh.InUse) (hu : fh.users ≠ 1) :
    fh.saveIntervalTrees = some { fh with users := fh.users - 1 } := by
  have hpos := h.users_pos
  have hlt := h.users_lt
  have hdec : u32 (fh.users + (2 ^ 32 - 1)) = fh.users - 1 := by
    unfold u32
    omega
  unfold saveIntervalTrees
  rw [if_neg (by omega), hdec]
  dsimp only
  rw [if_pos (by omega)]

theorem load_other (hpos : 0 < fh.users) (hlt : fh.users + 1 < 2 ^ 32) :
    fh.loadIntervalTrees = some { fh with users := fh.users + 1 } := by
  have hinc : u32 (fh.users + 1) = fh.users + 1 := Nat.mod_eq_of_lt hlt
  unfold loadIntervalTrees
  rw [hinc]
  dsimp only
  rw [if_pos (by omega)]

/-- Between two calls the trees are in memory or on the disk only. -/
def Inv (fh : IntervalFh) : Prop := fh.Stored ∨ fh.InUse

theorem Stored.call (h : fh.Stored) {c : IntervalCall} (hsmall : fh.Small c) (hc : fh.call c = some fh') :
    fh'.Inv := by
  -- without a tree only a load or closing a descriptor does something
  have hnone : ∀ {type : TreeType} {f : StoredTree → Option StoredTree}, f (fh.trees type) = none →
      ¬ fh.on type f = some fh' := by
    intro type f hf hon
    obtain ⟨s, hs, -⟩ := on_eq_some hon
    rw [hf] at hs
    cases hs
  unfold IntervalFh.call at hc
  split_ifs at hc with hvalid
  cases c with
  | append type start stop =>
    exact absurd hc (hnone (by unfold appendInterval; rw [h.tree type]; rfl))
  | delete type intervals =>
    exact absurd hc (hnone (by unfold delete; rw [h.tree type]; rfl))
  | deleteModified intervals =>
    exact absurd hc (hnone (by unfold delete; rw [h.tree .modified]; rfl))
  | empty type =>
    exact absurd hc (hnone (by unfold empty flush; rw [h.tree type]; rfl))
  | flush type =>
    exact absurd hc (hnone (by unfold flush; rw [h.tree type]; rfl))
  | close type =>
    obtain ⟨s, hs, rfl⟩ := on_eq_some hc
    rw [Option.some.injEq] at hs
    have hsame : Function.update fh.trees type s = fh.trees := by
      rw [← hs, ← h.fd type]
      exact Function.update_eq_self type fh.trees
    left
    rw [hsame]
    exact h
  | load =>
    rw [Small, if_pos h.users] at hsmall
    choose records hr using h.recorded
    obtain ⟨fh₁, hload, -, huse⟩ := h.load hr
    obtain rfl : fh₁ = fh' := Option.some.inj (hload.symm.trans hc)
    exact Or.inr (huse hsmall)
  | save =>
    rw [saveIntervalTrees, if_pos h.users] at hc
    cases hc

theorem InUse.call (h : fh.InUse) {c : IntervalCall} (hsmall : fh.Small c) (hc : fh.call c = some fh') :
    fh'.Inv := by
  unfold IntervalFh.call at hc
  split_ifs at hc with hvalid
  cases c with
  | append type start stop =>
    refine Or.inr (h.on (fun hl => ?_) hc)
    obtain ⟨s', t', u', records', hrun, hl', -⟩ := hl.append hvalid.1 hvalid.2 fun htype => by
      subst htype
      rwa [Small, modifiedNodes_eq hl] at hsmall
    exact ⟨s', t', u', records', hrun, hl'⟩
  | delete type intervals =>
    refine Or.inr (h.on (fun hl => ?_) hc)
    obtain ⟨s', t', u', records', hrun, hl', -⟩ := hl.delete_flush hvalid fun htype => by
      subst htype
      rwa [Small, modifiedNodes_eq hl] at hsmall
    exact ⟨s', t', u', records', hrun, hl'⟩
  | deleteModified intervals =>
    refine Or.inr (h.on (fun {t u records} hl => ?_) hc)
    rw [Small, modifiedNodes_eq hl] at hsmall
    obtain ⟨s', t', u', hrun, hl', -⟩ := hl.deleteModified hvalid hsmall
    exact ⟨s', t', u', records, hrun, hl'⟩
  | empty type =>
    refine Or.inr (h.on (fun hl => ?_) hc)
    obtain ⟨s', u', records', hrun, hl', -⟩ := flush_spec (s := (fh.trees type).empty) fh.size
      (by rw [empty, hl.tree]; rfl) hl.sound.empty fun _ => Nat.two_pow_pos 32
    exact ⟨s', _, u', records', hrun, hl'⟩
  | flush type =>
    refine Or.inr (h.on (fun hl => ?_) hc)
    obtain ⟨s', u', records', hrun, hl', -⟩ := flush_spec fh.size hl.tree hl.sound hl.small
    exact ⟨s', _, u', records', hrun, hl'⟩
  | close type =>
    refine Or.inr (h.on (fun hl => ?_) hc)
    exact ⟨_, _, _, _, rfl, hl.close⟩
  | load =>
    rw [Small, if_neg h.users_pos.ne'] at hsmall
    rw [load_other h.users_pos hsmall, Option.some.injEq] at hc
    subst hc
    exact Or.inr ⟨h.size_lt, Nat.succ_pos _, hsmall, h.loaded⟩
  | save =>
    by_cases hu : fh.users = 1
    · obtain ⟨fh₁, records, hsave, hstored, -⟩ := h.save hu
      rw [hsave, Option.some.injEq] at hc
      exact Or.inl (hc ▸ hstored)
    · rw [h.save_other hu, Option.some.injEq] at hc
      subst hc
      have := h.users_pos
      have := h.users_lt
      exact Or.inr ⟨h.size_lt, by dsimp only; omega, by dsimp only; omega, h.loaded⟩

theorem inv_of_reach (h : Runs.Reach IntervalFh.call Small Stored fh) : fh.Inv := by
  refine h.inv (fun fh h => Or.inl h) fun fh c fh' hinv hsmall hc => ?_
  rcases hinv with hinv | hinv
  · exact hinv.call hsmall hc
  · exact hinv.call hsmall hc

/-- What is rebuilt after a death of the process is safe. -/
theorem InUse.die_load (h : fh.InUse) :
    ∃ fh', fh.die.loadIntervalTrees = some fh' ∧ fh'.offsets .updated ⊆ fh.offsets .updated ∧
      fh.offsets .modified ∩ Set.Iio fh.size ⊆ fh'.offsets .modified := by
  choose t u records hl using h.loaded
  have hr : ∀ type, (fh.die.trees type).Recorded (records type) := fun type =>
    ⟨(hl type).recorded.file, (hl type).recorded.fits, fun hcon => by cases hcon⟩
  have hstored : fh.die.Stored := ⟨h.size_lt, rfl, fun _ => rfl, fun _ => rfl, fun type => ⟨_, hr type⟩⟩
  obtain ⟨fh', hload, hoff, -⟩ := hstored.load hr
  refine ⟨fh', hload, fun x hx => ?_, fun x hx => ?_⟩
  · rw [IntervalFh.offsets, mem_offsets (hl .updated).tree (hl .updated).sound]
    exact (hl .updated).updated rfl x ((hoff .updated x).mp hx)
  · obtain ⟨hx, hsize⟩ := hx
    rw [IntervalFh.offsets, mem_offsets (hl .modified).tree (hl .modified).sound] at hx
    exact (hoff .modified x).mpr ((hl .modified).modified rfl x hsize hx)

theorem InUse.save_load (h : fh.InUse) :
    ∃ fh₁ fh₂, fh.saveIntervalTrees = some fh₁ ∧ fh₁.loadIntervalTrees = some fh₂ ∧
      ∀ type, fh₂.offsets type = if fh.users = 1 then fh.offsets type ∩ Set.Iio fh.size else fh.offsets type := by
  by_cases hu : fh.users = 1
  · obtain ⟨fh₁, records, hsave, hstored, hsize, hr, hexact⟩ := h.save hu
    obtain ⟨fh₂, hload, hoff, -⟩ := hstored.load hr
    refine ⟨fh₁, fh₂, hsave, hload, fun type => ?_⟩
    ext x
    rw [if_pos hu, hoff type x, hsize, hexact type x, Set.mem_inter_iff, Set.mem_Iio, and_comm]
  · have hpos := h.users_pos
    have hlt := h.users_lt
    refine ⟨_, _, h.save_other hu, load_other (by dsimp only; omega) (by dsimp only; omega), fun type => ?_⟩
    rw [if_neg hu]
    rfl

end Steps
end IntervalFh

/-- In every run whose calls leave the modified tree and the number of users below 2^32: a save and a
load give the same sets up to the size of the file, and after a death of the process at most the updated
offsets are found updated and at least the modified offsets of the file are found modified. -/
theorem intervalFiles_safe {fh : IntervalFh} (h : Runs.Reach IntervalFh.call IntervalFh.Small IntervalFh.Stored fh)
    (hu : 0 < fh.users) :
    (∃ fh₁ fh₂, fh.saveIntervalTrees = some fh₁ ∧ fh₁.loadIntervalTrees = some fh₂ ∧
      ∀ type, fh₂.offsets type =
        if fh.users = 1 then fh.offsets type ∩ Set.Iio fh.size else fh.offsets type) ∧
    ∃ fh', fh.die.loadIntervalTrees = some fh' ∧ fh'.offsets .updated ⊆ fh.offsets .updated ∧
      fh.offsets .modified ∩ Set.Iio fh.size ⊆ fh'.offsets .modified := by
  rcases IntervalFh.inv_of_reach h with hinv | hinv
  · exact absurd hinv.users hu.ne'
  · exact ⟨hinv.save_load, hinv.die_load⟩

/-- The file of 100 bytes is opened, its bytes from 10 to 20 are written, and an interval that begins
in it and ends behind it is appended to the updated tree. -/
theorem intervalFiles_safe_written : let trees : TreeType → StoredTree := fun _ => ⟨none, .closed, none, false⟩
    ∃ fh, Runs.run IntervalFh.call ⟨100, 0, trees⟩ [.load, .append .modified 10 20, .append .updated 90 120] = some fh ∧
      0 < fh.users ∧
      (∃ fh₁ fh₂, fh.saveIntervalTrees = some fh₁ ∧ fh₁.loadIntervalTrees = some fh₂ ∧
        ∀ type, fh₂.offsets type =
          if fh.users = 1 then fh.offsets type ∩ Set.Iio fh.size else fh.offsets type) ∧
      ∃ fh', fh.die.loadIntervalTrees = some fh' ∧ fh'.offsets .updated ⊆ fh.offsets .updated ∧
        fh.offsets .modified ∩ Set.Iio fh.size ⊆ fh'.offsets .modified := by
  intro trees
  have hstored : IntervalFh.Stored ⟨100, 0, trees⟩ :=
    ⟨by decide, rfl, fun _ => rfl, fun _ => rfl, fun _ => ⟨[], rfl, by simp, fun hcon => by cases hcon⟩⟩
  obtain ⟨fh₁, h1, hsmall1, fh₂, h2, fh3, h3, hu⟩ : ∃ fh₁, IntervalFh.call ⟨100, 0, trees⟩ .load = some fh₁ ∧
      fh₁.Small (.append .modified 10 20) ∧ ∃ fh₂, fh₁.call (.append .modified 10 20) = some fh₂ ∧
      ∃ fh3, fh₂.call (.append .updated 90 120) = some fh3 ∧ fh3.users = 1 :=
    ⟨_, rfl, by decide, _, rfl, _, rfl, rfl⟩
  have hreach : Runs.Reach IntervalFh.call IntervalFh.Small IntervalFh.Stored fh3 :=
    (((Runs.Reach.init hstored).step (by decide) h1).step hsmall1 h2).step (e := .append .updated 90 120) trivial h3
  refine ⟨fh3, ?_, by omega, intervalFiles_safe hreach (by omega)⟩
  simp only [Runs.run, h1, h2, h3, Option.bind_some]

/-! ## A tree with 2^32 nodes -/

theorem insertNodes_last {l : List Span} {start : ℕ} (hl : ∀ s ∈ l, s.start < start ∧ s.stop < start) (stop : ℕ) :
    insertNodes l start stop = l ++ [⟨start, stop⟩] := by
  have hbefore : before l start = l := List.filter_eq_self.mpr fun s hs => by simpa using (hl s hs).1
  have hafter : after l start = [] := List.filter_eq_nil_iff.mpr fun s hs => by simpa using (hl s hs).1.le
  have hat : spanAt l start = none := List.find?_eq_none.mpr fun s hs => by simpa using (hl s hs).1.ne
  have hprev : l.getLast?.filter (start ≤ ·.stop) = none := by
    cases hlast : l.getLast? with
    | none => rfl
    | some prev =>
      have := (hl prev (List.mem_of_getLast? hlast)).2
      simpa using this
  simp only [insertNodes, hat, hbefore, hafter, hprev, List.head?_nil, Option.filter_none, absorb]

theorem StoredTree.appendInterval_useless {s : StoredTree} {t t' : IntervalTreeDef} (size : ℕ) (type : TreeType)
    {start stop : ℕ} (htree : s.tree = some t) (hrun : t.insert start stop = some t') :
    ∃ s', s.appendInterval size type start stop = some s' ∧ s'.tree = some t' ∧
      (useless size t' type = true → s'.flag = false ∧ s'.file = none) := by
  unfold appendInterval
  rw [htree]
  dsimp only [Option.bind_eq_bind, Option.bind_some]
  rw [hrun]
  refine ⟨_, rfl, ?_, fun hu => ?_⟩
  · unfold deleteUselessIntervalFile
    split_ifs <;> exact (fullWrite_tree _).trans openIntervalFile_tree
  · rw [deleteUselessIntervalFile, if_pos hu]
    exact ⟨rfl, rfl⟩

/-- `n` single bytes of a large file are written, with a byte between any two of them. -/
theorem reach_written (n : ℕ) (hn : n ≤ 2 ^ 32) :
    ∃ fh t u, Runs.Reach IntervalFh.call (fun _ _ => True) IntervalFh.Stored fh ∧ fh.size = 2 ^ 34 ∧ fh.users = 1 ∧
      (fh.trees .updated).flag = false ∧ (fh.trees .updated).file = none ∧
      (fh.trees .modified).tree = some t ∧ Sound t u ∧ u.nodes = (List.range n).map (fun k => ⟨2 * k, 2 * k + 1⟩) ∧
      (0 < n → useless (2 ^ 34) t .modified = true →
        (fh.trees .modified).flag = false ∧ (fh.trees .modified).file = none) := by
  induction n with
  | zero =>
    have hstored : IntervalFh.Stored ⟨2 ^ 34, 0, fun _ => ⟨none, .closed, none, false⟩⟩ :=
      ⟨by decide, rfl, fun _ => rfl, fun _ => rfl, fun _ => ⟨[], rfl, by simp, fun hcon => by cases hcon⟩⟩
    have hcall : IntervalFh.call ⟨2 ^ 34, 0, fun _ => ⟨none, .closed, none, false⟩⟩ .load = some _ := rfl
    exact ⟨_, .create, .create, (Runs.Reach.init hstored).step trivial hcall, rfl, rfl, rfl, rfl, rfl, sound_create,
      rfl, fun hpos => absurd hpos (lt_irrefl 0)⟩
  | succ n ih =>
    obtain ⟨fh, t, u, hreach, hsize, husers, hflag, hfile, htree, hs, hnodes, -⟩ := ih (by omega)
    have hvalid : (IntervalCall.append .modified (2 * n) (2 * n + 1)).Valid :=
      ⟨Nat.le_succ _, by rw [UINT64_MAX]; omega⟩
    obtain ⟨t', hrun, href⟩ := hs.refines.insert (Nat.le_succ (2 * n))
    have hsmall := (insertNodes_small u.separated.ordered (2 * n) hs.stop_le hvalid.2).1
    obtain ⟨s', happend, htree', huseless⟩ := appendInterval_useless (2 ^ 34) .modified htree hrun
    have hcall : fh.call (.append .modified (2 * n) (2 * n + 1)) =
        some { fh with trees := Function.update fh.trees .modified s' } := by
      rw [IntervalFh.call, if_pos hvalid, IntervalFh.on, hsize, happend]
      rfl
    refine ⟨_, t', _, hreach.step trivial hcall, hsize, husers, by simpa using hflag, by simpa using hfile,
      by simpa using htree', ⟨href, hsmall⟩, ?_, fun _ hu => by simpa using huseless hu⟩
    have hlast : insertNodes u.nodes (2 * n) (2 * n + 1) = u.nodes ++ [⟨2 * n, 2 * n + 1⟩] := by
      apply insertNodes_last
      intro s hs
      rw [hnodes, List.mem_map] at hs
      obtain ⟨k, hk, rfl⟩ := hs
      rw [List.mem_range] at hk
      exact ⟨by dsimp only; omega, by dsimp only; omega⟩
    rw [List.range_succ, List.map_append, ← hnodes]
    exact hlast

/-- With 2^32 nodes `tree->size` is zero again: the interval file is removed and the flag cleared, so a
load after the death of the process finds nothing modified. -/
theorem intervalFiles_lost :
    ∃ fh fh', Runs.Reach IntervalFh.call (fun _ _ => True) IntervalFh.Stored fh ∧ 0 < fh.users ∧
      fh.die.loadIntervalTrees = some fh' ∧ ¬ fh.offsets .modified ∩ Set.Iio fh.size ⊆ fh'.offsets .modified := by
  obtain ⟨fh, t, u, hreach, hsize, husers, hflag, hfile, htree, hs, hnodes, huseless⟩ := reach_written (2 ^ 32) le_rfl
  have hsize0 : useless (2 ^ 34) t .modified = true := by
    rw [useless, hs.refines.rep.size, hnodes, List.length_map, List.length_range]
    decide
  obtain ⟨hflag', hfile'⟩ := huseless (Nat.two_pow_pos 32) hsize0
  have hr : ∀ type, (fh.die.trees type).Recorded [] := fun type =>
    ⟨by cases type <;> simp [IntervalFh.die, die, hfile, hfile'], by simp, fun hcon => by cases hcon⟩
  have hstored : fh.die.Stored := ⟨by rw [IntervalFh.die, hsize]; decide, rfl, fun _ => rfl, fun _ => rfl,
    fun type => ⟨[], hr type⟩⟩
  obtain ⟨fh', hload, hoff, -⟩ := hstored.load hr
  refine ⟨fh, fh', hreach, by omega, hload, fun hsub => ?_⟩
  -- the first byte is modified
  have hmem : 0 ∈ fh.offsets .modified := by
    rw [IntervalFh.offsets, mem_offsets htree hs]
    refine ⟨⟨0, 1⟩, ?_, by decide⟩
    rw [hnodes, List.mem_map]
    exact ⟨0, List.mem_range.mpr (Nat.two_pow_pos 32), rfl⟩
  have hlost := (hoff .modified 0).mp (hsub ⟨hmem, by rw [Set.mem_Iio, hsize]; exact Nat.two_pow_pos 34⟩)
  have hdie : (fh.die.trees .modified).flag = false := hflag'
  rw [Rebuilt, hdie, if_neg Bool.false_ne_true] at hlost
  exact absurd hlost.2 (by decide)

end ZFS
